import SelectionGraph.Proofs.Direct.Join

/-!
# Bare — direct selections without the nodes they were written as

A field that selects on an entity keeps the node it was first written as, with what was selected there,
and it is numbered among the fields of its definition.  Neither has a part in how selections are put
together.  A field of leaf type keeps its node, below which there is nothing.

* `bare`      — fields without what is selected at their nodes, and without their numbers;
* `join_bare` — merging bare selections comes to bare merged selections, or to nothing as well.
-/

namespace SelectionGraph

/-- A node without what is selected below it. -/
def FieldSelection.bare (f : FieldSelection) : FieldSelection :=
  { f with selections := [] }

/-- The identity of a field without its number in its definition. -/
def FieldId.bare (id : FieldId) : FieldId :=
  ⟨id.definition, 0⟩

def FragmentHandle.bare (f : FragmentHandle) : FragmentHandle :=
  { f with identity := f.identity.bare }

def NamedSpread.bare (s : NamedSpread) : NamedSpread :=
  { s with fragment := s.fragment.bare }

namespace DirectSelections

mutual

def bare : DirectSelections → DirectSelections
  | ⟨fields, inlineFragments, namedFragments⟩ =>
      ⟨bareFields fields, bareInlines inlineFragments, namedFragments.map NamedSpread.bare⟩

def bareFields : List Field → List Field
  | [] => []
  | .scalar f :: rest => .scalar f :: bareFields rest
  | .entity ⟨id, responseKey, type, node, inclusion, ⟨typeInfo, direct⟩⟩ :: rest =>
      .entity ⟨id.bare, responseKey, type, node.map FieldSelection.bare, inclusion,
        ⟨typeInfo, bare direct⟩⟩ :: bareFields rest

def bareInlines : List InlineSpread → List InlineSpread
  | [] => []
  | ⟨⟨typeInfo, direct⟩, deferral⟩ :: rest =>
      ⟨⟨typeInfo, bare direct⟩, deferral⟩ :: bareInlines rest

end

end DirectSelections

def SelectionSet.bare (s : SelectionSet) : SelectionSet :=
  { s with direct := s.direct.bare }

def EntityField.bare (f : EntityField) : EntityField :=
  { f with
    id := f.id.bare
    node := f.node.map FieldSelection.bare
    selectionSet := f.selectionSet.bare }

def Field.bare : Field → Field
  | scalar f => scalar f
  | entity f => entity f.bare

def InlineSpread.bare (s : InlineSpread) : InlineSpread :=
  { s with selectionSet := s.selectionSet.bare }

/-! ## Lists -/

namespace DirectSelections

theorem bareFields_eq (fields : List Field) : bareFields fields = fields.map Field.bare := by
  induction fields with
  | nil => rw [bareFields, List.map_nil]
  | cons f rest ih =>
      rcases f with f | ⟨id, responseKey, type, node, inclusion, ⟨typeInfo, direct⟩⟩
      · rw [bareFields, ih]
        rfl
      · rw [bareFields, ih]
        rfl

theorem bareInlines_eq (inlines : List InlineSpread) :
    bareInlines inlines = inlines.map InlineSpread.bare := by
  induction inlines with
  | nil => rw [bareInlines, List.map_nil]
  | cons s rest ih =>
      obtain ⟨⟨typeInfo, direct⟩, deferral⟩ := s
      rw [bareInlines, ih]
      rfl

theorem bare_mk (fields : List Field) (inlines : List InlineSpread) (spreads : List NamedSpread) :
    bare ⟨fields, inlines, spreads⟩
      = ⟨fields.map Field.bare, inlines.map InlineSpread.bare, spreads.map NamedSpread.bare⟩ := by
  rw [bare, bareFields_eq, bareInlines_eq]

@[simp] theorem fields_bare (d : DirectSelections) : d.bare.fields = d.fields.map Field.bare := by
  cases d
  rw [bare_mk]

@[simp] theorem inlineFragments_bare (d : DirectSelections) :
    d.bare.inlineFragments = d.inlineFragments.map InlineSpread.bare := by
  cases d
  rw [bare_mk]

@[simp] theorem namedFragments_bare (d : DirectSelections) :
    d.bare.namedFragments = d.namedFragments.map NamedSpread.bare := by
  cases d
  rw [bare_mk]

end DirectSelections

@[simp] theorem Field.bare_alone (f : Field) : f.alone.bare = f.bare.alone := by
  rw [alone, DirectSelections.bare_mk]
  rfl

@[simp] theorem InlineSpread.bare_alone (s : InlineSpread) : s.alone.bare = s.bare.alone := by
  rw [alone, DirectSelections.bare_mk]
  rfl

@[simp] theorem NamedSpread.bare_alone (s : NamedSpread) : s.alone.bare = s.bare.alone := by
  rw [alone, DirectSelections.bare_mk]
  rfl

@[simp] theorem Field.responseKey_bare (f : Field) : f.bare.responseKey = f.responseKey := by
  cases f <;> rfl

@[simp] theorem InlineSpread.key_bare (s : InlineSpread) : s.bare.key = s.key := rfl

@[simp] theorem NamedSpread.key_bare (s : NamedSpread) : s.bare.key = s.key := rfl

/-! ## Merging -/

theorem Field.combine_bare {held f : Field} (below : ∀ e, f = .entity e → ∀ d : DirectSelections,
      d.bare.join e.selectionSet.direct.bare = (d.join e.selectionSet.direct).map .bare) :
    held.bare.combine f.bare = (held.combine f).map Field.bare := by
  rcases held with held | held <;> rcases f with f | f
  · rfl
  · rfl
  · rfl
  · by_cases same : held.entity = f.entity
    · have same' : held.bare.entity = f.bare.entity := same
      change (entity held.bare).combine (.entity f.bare) = _
      rw [combine_same same, combine_same same', Option.map_map]
      change (held.selectionSet.direct.bare.join f.selectionSet.direct.bare).map _ = _
      rw [below f rfl, Option.map_map]
      rfl
    · have apart : held.bare.entity ≠ f.bare.entity := same
      change (entity held.bare).combine (.entity f.bare) = _
      rw [combine_apart same, combine_apart apart]
      rfl

theorem InlineSpread.combine_bare {held s : InlineSpread} (below : ∀ d : DirectSelections,
      d.bare.join s.selectionSet.direct.bare = (d.join s.selectionSet.direct).map .bare) :
    held.bare.combine s.bare = (held.combine s).map InlineSpread.bare := by
  change (held.selectionSet.direct.bare.join s.selectionSet.direct.bare).map _ = _
  rw [below, combine, Option.map_map, Option.map_map]
  rfl

namespace DirectSelections

mutual

/-- Bare selections are merged as the selections are. -/
theorem join_bare : ∀ e d : DirectSelections, d.bare.join e.bare = (d.join e).map bare
  | ⟨fields, inlines, spreads⟩, d => by
      have joinFields : Field.joinAll (d.fields.map Field.bare) (fields.map Field.bare)
          = (Field.joinAll d.fields fields).map (List.map Field.bare) :=
        Ordered.join_map Field.responseKey_bare fun f mem g => combineField_bare fields f mem g
      have joinInlines : InlineSpread.joinAll (d.inlineFragments.map InlineSpread.bare)
            (inlines.map InlineSpread.bare)
          = (InlineSpread.joinAll d.inlineFragments inlines).map (List.map InlineSpread.bare) :=
        Ordered.join_map InlineSpread.key_bare fun s mem t => combineInline_bare inlines s mem t
      have joinSpreads : NamedSpread.joinAll (d.namedFragments.map NamedSpread.bare)
            (spreads.map NamedSpread.bare)
          = (NamedSpread.joinAll d.namedFragments spreads).map (List.map NamedSpread.bare) :=
        Ordered.join_map NamedSpread.key_bare fun _ _ _ => rfl
      rw [join_eq, join_eq, bare_mk, fields_bare, inlineFragments_bare, namedFragments_bare,
        joinFields, joinInlines, joinSpreads]
      cases Field.joinAll d.fields fields <;> cases InlineSpread.joinAll d.inlineFragments inlines <;>
        cases NamedSpread.joinAll d.namedFragments spreads <;> simp [gather?, bare_mk]

theorem combineField_bare : ∀ fields : List Field, ∀ f ∈ fields, ∀ held : Field,
    held.bare.combine f.bare = (held.combine f).map Field.bare
  | [] => by simp
  | .scalar f :: rest => by
      refine List.forall_mem_cons.mpr ⟨fun held => ?_, combineField_bare rest⟩
      exact Field.combine_bare (by rintro e ⟨⟩)
  | .entity ⟨id, responseKey, type, node, inclusion, ⟨typeInfo, direct⟩⟩ :: rest => by
      refine List.forall_mem_cons.mpr ⟨fun held => ?_, combineField_bare rest⟩
      refine Field.combine_bare ?_
      rintro _ ⟨⟩ d
      exact join_bare direct d

theorem combineInline_bare : ∀ inlines : List InlineSpread, ∀ s ∈ inlines, ∀ held : InlineSpread,
    held.bare.combine s.bare = (held.combine s).map InlineSpread.bare
  | [] => by simp
  | ⟨⟨typeInfo, direct⟩, deferral⟩ :: rest => by
      refine List.forall_mem_cons.mpr ⟨fun held => ?_, combineInline_bare rest⟩
      exact InlineSpread.combine_bare fun d => join_bare direct d

end

end DirectSelections

end SelectionGraph
