import SelectionGraph.Proofs.Direct.Sites
import SelectionGraph.Proofs.Entity.Inlining

/-!
# Tally — what the direct selections of a walk tell

A walk puts direct selections together from below.  What they tell in the end is what is told of the
selections that the walk comes by: of a field in the scope where it is selected, and of a spread in the
scope of its fragment's type, which is entered for it.

* `EntityStorage.Located` — what is told by the paths of entities, told of places;
* `Tally`                 — a property of selections that adds up what is told of them;
* `adds_spreadSite`       — a spread tells where its fragment's type is selected on, wherever it is put;
* `Walked.adds_tally`     — the direct selections of a walk tell any tally of its selections.
-/

namespace SelectionGraph

variable {view : SchemaView} {document : Document} {built : List NamedFragment}

/-! ## Told by paths -/

/-- What is told of an entry by the path of its entity, its scope and its slot, with its inclusion. -/
abbrev Tale : Type :=
  FieldPath → ScopePath → Slot → Inclusion → Prop

/-- What is told depends on scopes up to equality, and adds up with conditions. -/
structure Tale.Even (told : Tale) : Prop where
  of_beq : ∀ {path scope scope' slot c},
    (scope == scope') = true → told path scope slot c → told path scope' slot c
  merge : ∀ {path scope slot c c'},
    told path scope slot (c.merge c') ↔ told path scope slot c ∨ told path scope slot c'

/-- What is told by the path of an entity, told of a place on it. -/
def EntityStorage.Located (s : EntityStorage) (told : Tale) (info : TypeInfo) (slot : Slot)
    (c : Inclusion) : Prop :=
  ∃ path, s.pathOf? info.entity = some path ∧ told path info.scopePath slot c

theorem Tale.Even.telling {told : Tale} (even : told.Even) (s : EntityStorage) :
    Telling (s.Located told) where
  of_alike := by
    rintro i j slot c alike ⟨path, at_, held⟩
    exact ⟨path, alike.entity ▸ at_, even.of_beq alike.scope held⟩
  merge := by
    simp only [EntityStorage.Located, even.merge, and_or_left, exists_or, implies_true]

/-- At the path of an entity, what is told of a place is what is told there. -/
theorem EntityStorage.located_iff {s : EntityStorage} {told : Tale} {info : TypeInfo}
    {path : FieldPath} (at_ : s.pathOf? info.entity = some path) {slot : Slot} {c : Inclusion} :
    s.Located told info slot c ↔ told path info.scopePath slot c := by
  simp only [Located, at_, Option.some.injEq, exists_eq_left']

/-- A property of the selections at a place that adds up what is told of those that are included: of a
field where it is, and of a spread in the scope of its fragment's type. -/
structure Tally (view : SchemaView) (built : List NamedFragment) (told : Tale)
    (sum : Place → List Selection → Prop) : Prop where
  nil : ∀ {p}, ¬ sum p []
  cons : ∀ {p s ss}, sum p (s :: ss) ↔ sum p [s] ∨ sum p ss
  skipped : ∀ {p} {s : Selection}, Inclusion.ofDirectives s.directives = .ok none → ¬ sum p [s]
  field : ∀ {p : Place} {f : FieldSelection} {own}, p.guards = [] →
    Inclusion.ofDirectives f.directives = .ok (some own) →
    (sum p [.field f] ↔ told p.entity p.scope (.field f.responseKey) own
      ∨ view.isComposite f.type.innerName = .ok true ∧ sum (p.below f) f.selections)
  inline : ∀ {p : Place} {condition directives inner verdict conditions},
    Verdict.ofDirectives directives = .ok verdict → verdict.scope? = some conditions →
    (sum p [.inlineFragment condition directives inner]
      ↔ sum (p.enter condition conditions (.said directives)) inner)
  spread : ∀ {p : Place} {name directives own fragment}, p.guards = [] →
    Inclusion.ofDirectives directives = .ok (some own) →
    NamedFragment.find? built name = some fragment →
    (sum p [.fragmentSpread name directives]
      ↔ told p.entity (p.follow fragment.definition.typeCondition own).scope (.fragment name) own)

/-! ## Spreads -/

/-- A scope that is entered is one scope further. -/
theorem TypeInfo.opens_enter (info : TypeInfo) (scope : Scope) (isRootFieldType : Bool) :
    info.Opens (info.enter scope isRootFieldType) :=
  ⟨scope, isRootFieldType, info.last?_enter scope isRootFieldType, .refl _⟩

/-- A spread that is added tells what it tells, wherever it is put. -/
theorem adds_spreadSite {told : TypeInfo → Slot → Inclusion → Prop} (telling : Telling told)
    {info : TypeInfo} {direct direct₁ : DirectSelections} (sited : direct.Sited info)
    {handle : FragmentHandle} {own : Inclusion} {deferral : Deferral}
    (added : Walk.addSpread info direct
      ⟨handle, Walk.spreadSite view info handle.typeCondition, own, deferral⟩ = .ok direct₁) :
    direct.Adds told info
      (told (Walk.spreadSite view info handle.typeCondition) (.fragment handle.name) own)
      direct₁ := by
  unfold Walk.addSpread Walk.spreadScope? at added
  unfold Walk.spreadSite Walk.spreadScope? at added ⊢
  by_cases same : (handle.typeCondition == info.parentType) = true
  · -- The spread stands in the set itself.
    simp only [same, if_true] at added ⊢
    cases added
    exact DirectSelections.adds_spread telling sited (s := ⟨handle, info, own, deferral⟩) (.refl info)
  · -- The spread stands alone in an inline fragment, one scope further.
    simp only [same, Bool.false_eq_true, if_false] at added ⊢
    have opens := info.opens_enter ⟨handle.typeCondition, none⟩
      (view.isRootFieldType handle.typeCondition)
    have inside := DirectSelections.adds_spread telling
      (.nothing (info.enter ⟨handle.typeCondition, none⟩
        (view.isRootFieldType handle.typeCondition)))
      (s := ⟨handle, _, own, deferral⟩) (.refl _)
    exact (DirectSelections.adds_inline telling sited opens inside.sited added).congr
      inside.of_empty

/-! ## Walks -/

section Walked

variable {told : Tale} {sum : Place → List Selection → Prop} {final : EntityStorage}
  {info : TypeInfo} {direct direct' : DirectSelections} {draft draft' : Draft} {ss : List Selection}

/-- A walk adds to direct selections what its selections add up to.  The induction is on the walk;
entities are looked up where it ends, for they keep their numbers. -/
theorem Walked.adds_tally (even : told.Even) (tally : Tally view built told sum)
    (fragments : ∀ g ∈ built, g.Inlined view document)
    (h : Walked view built info direct draft ss direct' draft') :
    ∀ {site : FieldPath}, draft.entities.WellFormed →
      draft.entities.pathOf? info.entity = some site → draft'.entities.Extends final →
      direct.Sited info →
      direct.Adds (final.Located told) info (sum (info.place site) ss) direct' := by
  have telling := even.telling final
  induction h with
  | nil =>
      intro site wf at_ ends sited
      exact sited.adds_nothing tally.nil
  | skipped skips _ ih =>
      intro site wf at_ ends sited
      refine (ih wf at_ ends sited).congr ?_
      rw [tally.cons]
      exact (or_iff_right (tally.skipped skips)).symm
  | @leaf info direct direct₁ direct' draft draft' f ss inclusion included isLeaf added walked ih =>
      intro site wf at_ ends sited
      have grown := adds_leaf wf at_ isLeaf inclusion
      have at₁ := grown.extended.paths _ _ at_
      have later := (walked.adds fragments grown.wellFormed at₁).extended.trans ends
      have first := DirectSelections.adds_field telling sited (by rintro e ⟨⟩) added
      refine (first.trans (ih grown.wellFormed at₁ ends first.sited)).congr ?_
      rw [tally.cons]
      refine or_congr_left ?_
      calc (Field.scalar ⟨f, inclusion⟩).Tells (final.Located told) info
          ↔ final.Located told info (.field f.responseKey) inclusion := or_iff_left (by simp)
        _ ↔ told site info.scopePath (.field f.responseKey) inclusion :=
            EntityStorage.located_iff (later.paths _ _ at₁)
        _ ↔ sum (info.place site) [.field f] := by
            rw [tally.field rfl included, isLeaf]
            simp [TypeInfo.place]
  | @entity info direct below direct₁ direct' draft draft₁ draft' entities entity f ss inclusion
      included isComposite selected inner added walked ihInner ih =>
      intro site wf at_ ends sited
      obtain ⟨grown, at'⟩ := adds_entity wf at_ isComposite inclusion selected
      have inside := inner.adds fragments grown.wellFormed at'
      have at₁ := inside.extended.paths _ _ (grown.extended.paths _ _ at_)
      have later := (walked.adds fragments inside.wellFormed at₁).extended.trans ends
      have adds := ihInner grown.wellFormed at' later (.nothing _)
      have first := DirectSelections.adds_field telling sited
        (by rintro _ ⟨⟩; exact ⟨rfl, adds.sited⟩) added
      refine (first.trans (ih inside.wellFormed at₁ ends first.sited)).congr ?_
      rw [tally.cons]
      refine or_congr_left ?_
      calc (f.build draft₁.nextId inclusion ⟨f.inside view entity, below⟩).Tells
              (final.Located told) info
          ↔ final.Located told info (.field f.responseKey) inclusion
            ∨ (SelectionSet.mk (f.inside view entity) below).Tells (final.Located told) := by
            refine or_congr_right ?_
            simp [FieldSelection.build]
        _ ↔ told site info.scopePath (.field f.responseKey) inclusion
            ∨ sum ((info.place site).below f) f.selections :=
            or_congr (EntityStorage.located_iff (later.paths _ _ at₁)) adds.of_empty
        _ ↔ sum (info.place site) [.field f] := by
            rw [tally.field rfl included, isComposite]
            simp [TypeInfo.place]
  | @flat info direct direct₁ direct' draft draft₁ draft' condition directives inner ss verdict
      conditions deferral read scope deferred flattens within walked ihInside ih =>
      intro site wf at_ ends sited
      have inside := within.adds fragments wf at_
      have at₁ := inside.extended.paths _ _ at_
      have later := (walked.adds fragments inside.wellFormed at₁).extended.trans ends
      have first := ihInside wf at_ later sited
      refine (first.trans (ih inside.wellFormed at₁ ends first.sited)).congr ?_
      rw [tally.cons, tally.inline read scope, Deferral.said_eq deferred,
        TypeInfo.enter_place_flat flattens]
  | @inline info direct below direct₁ direct' draft draft₁ draft' condition directives inner ss
      verdict conditions deferral read scope deferred opens within added walked ihInside ih =>
      intro site wf at_ ends sited
      have inside := within.adds fragments wf at_
      have at₁ := inside.extended.paths _ _ at_
      have later := (walked.adds fragments inside.wellFormed at₁).extended.trans ends
      have adds := ihInside wf at_ later (.nothing _)
      have first := DirectSelections.adds_inline telling sited (info.opens_enter _ _) adds.sited added
      refine (first.trans (ih inside.wellFormed at₁ ends first.sited)).congr ?_
      rw [tally.cons, tally.inline read scope, Deferral.said_eq deferred,
        TypeInfo.enter_place view opens]
      exact or_congr_left adds.of_empty
  | @spread info direct direct₁ direct' draft draft' entities name directives ss inclusion deferral
      fragment included deferred found merged added walked ih =>
      intro site wf at_ ends sited
      obtain ⟨-, named⟩ := NamedFragment.mem_of_find? found
      have grown := (Walked.spread included deferred found merged added .nil).adds fragments wf at_
      have at₁ := grown.extended.paths _ _ at_
      have later := (walked.adds fragments grown.wellFormed at₁).extended.trans ends
      have first := adds_spreadSite telling sited added
      refine (first.trans (ih grown.wellFormed at₁ ends first.sited)).congr ?_
      rw [tally.cons]
      refine or_congr_left ?_
      obtain ⟨entity, inScope⟩ := Walk.spreadSite_place view info site
        fragment.definition.typeCondition inclusion
      calc final.Located told (Walk.spreadSite view info fragment.definition.typeCondition)
              (.fragment fragment.name) inclusion
          ↔ told site ((info.place site).follow fragment.definition.typeCondition inclusion).scope
              (.fragment fragment.name) inclusion := by
            rw [← inScope]
            exact EntityStorage.located_iff (entity ▸ later.paths _ _ at₁)
        _ ↔ sum (info.place site) [.fragmentSpread name directives] := by
            rw [tally.spread rfl included found, named]
            rfl

/-- The direct selections of a definition sit where they are noted to, and tell what its selections add
up to. -/
theorem WalkedFrom.adds_tally (even : told.Even) (tally : Tally view built told sum)
    (fragments : ∀ g ∈ built, g.Inlined view document) {source : SourceDefinition}
    {rootName : Name} {b : BuiltSelections} (h : WalkedFrom view built source rootName b) :
    b.rootField.selectionSet.direct.Sited b.rootField.selectionSet.typeInfo
      ∧ (b.rootField.selectionSet.Tells (b.entities.Located told)
        ↔ sum (.root source.definition.rootType) source.definition.selections) := by
  obtain ⟨direct, draft, walked, rfl⟩ := h
  have start := EntityStorage.start_wellFormed source
  have adds : DirectSelections.Adds (draft.entities.Located told) (source.info view)
      .empty _ direct :=
    walked.adds_tally even tally fragments start start.rootFirst (.refl draft.entities) (.nothing _)
  have root : (source.info view).place .root = .root source.definition.rootType :=
    congrArg Place.root source.rootType_eq
  rw [root] at adds
  exact ⟨adds.sited, adds.of_empty⟩

end Walked
end SelectionGraph
