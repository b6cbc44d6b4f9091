import SelectionGraph.Proofs.Direct.Positions

/-!
# RootTypes — which sets are on root types

A place notes whether the type that is selected on there is a root type that some definition selects
on.  What it notes is what the view of the schema says of that type, however the place was come to.

* `TypeInfo.Classified`   — a place notes this rightly;
* `WalkedFrom.classified` — every selection set of a definition does, and so does every spread.
-/

namespace SelectionGraph

variable {view : SchemaView} {document : Document} {built : List NamedFragment}

/-! ## Places -/

/-- A place notes whether the type selected on there is a root type. -/
def TypeInfo.Classified (view : SchemaView) (info : TypeInfo) : Prop :=
  info.isRootFieldType = view.isRootFieldType info.parentType

/-- Places that are equal but for this note are equal if they are noted rightly. -/
theorem TypeInfo.Classified.beq_iff {i j : TypeInfo} (hi : i.Classified view)
    (hj : j.Classified view) : (i == j) = true
      ↔ i.entity = j.entity ∧ i.rootType = j.rootType ∧ (i.scopePath == j.scopePath) = true := by
  rw [TypeInfo.beq_iff]
  constructor
  · rintro ⟨entity, rootType, scope, -⟩
    exact ⟨entity, rootType, scope⟩
  · rintro ⟨entity, rootType, scope⟩
    have parentType : i.parentType = j.parentType := by
      rw [parentType, TypeInfo.parentType, rootType, ScopePath.typeOn_congr scope]
    exact ⟨entity, rootType, scope, by rw [hi, hj, parentType]⟩

theorem TypeInfo.Classified.congr {i j : TypeInfo} (h : i.Classified view)
    (same : (i == j) = true) : j.Classified view := by
  obtain ⟨-, -, -, isRoot⟩ := TypeInfo.beq_iff.mp same
  rw [Classified, ← isRoot, ← TypeInfo.parentType_congr same]
  exact h

theorem TypeInfo.classified_inScope (info : TypeInfo) (scope : Scope) :
    (info.inScope view scope).Classified view := by
  rw [Classified, info.parentType_inScope]
  rfl

theorem EntityField.StandsAt.classified {s : EntityStorage} {info : TypeInfo} {f : EntityField}
    (h : f.StandsAt view s info) : f.selectionSet.typeInfo.Classified view := by
  rw [h.own]
  rfl

/-- The scope that an inline fragment enters is on its own type, whether it names one or takes over
the one around it. -/
theorem InlineSpread.StandsAt.classified {info : TypeInfo} {f : InlineSpread}
    (h : f.StandsAt view info) : f.typeInfo.Classified view := by
  obtain ⟨scope, -, here⟩ := h
  exact (info.classified_inScope scope).congr (BEq.symm here)

/-! ## Sets -/

/-- Any set inside one that notes its place and is classified is both. -/
theorem SelectionSet.Within.noted {s : EntityStorage} {outer set : SelectionSet}
    (within : outer.Within set) (noted : outer.direct.Noted view s outer.typeInfo)
    (own : outer.typeInfo.Classified view) :
    set.direct.Noted view s set.typeInfo ∧ set.typeInfo.Classified view := by
  induction within with
  | self => exact ⟨noted, own⟩
  | field _ mem ih =>
      obtain ⟨stands, below⟩ := ih.1.field mem _ rfl
      exact ⟨below, stands.classified⟩
  | inline _ mem ih =>
      obtain ⟨stands, below⟩ := ih.1.inline mem
      exact ⟨below, stands.classified⟩

theorem SourceDefinition.classified_info (source : SourceDefinition) :
    (source.info view).Classified view :=
  rfl

/-- Every selection set of a definition is classified, and so is every spread in it. -/
theorem WalkedFrom.classified (library : Library view document built) {source : SourceDefinition}
    {rootName : Name} {b : BuiltSelections} (h : WalkedFrom view built source rootName b)
    {set : SelectionSet} (within : b.rootField.selectionSet.Within set) :
    set.typeInfo.Classified view
      ∧ ∀ t ∈ set.direct.namedFragments, t.typeInfo.Classified view := by
  have root : b.rootField.selectionSet.typeInfo.Classified view := by
    obtain ⟨direct, draft, -, rfl⟩ := h
    exact source.classified_info
  obtain ⟨noted, own⟩ := within.noted (h.noted library.inlined) root
  exact ⟨own, fun t mem => own.congr (BEq.symm (noted.spread mem).here)⟩

end SelectionGraph
