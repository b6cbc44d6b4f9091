import SelectionGraph.Proofs.Direct.Tally
import SelectionGraph.Proofs.Session.Sharing

/-!
# Agreement — entities and direct selections tell the same fields

A walk fills the trees of entities as it goes, and puts direct selections together from below.  Both
tell of the same fields: a field of an entity is one of a selection set on the entity, or one of the
fragment of a spread.

* `EntityStorage.toldAt`     — what entries tell of a field, in a scope of the entity at a path;
* `tally_occurs`             — what is told adds up to what the walk meets on the entity;
* `Contribution`             — the conditions under which a definition's parts select a field;
* `trees_agree_with_direct_selections` — a tree holds the fields that something contributes to.
-/

namespace SelectionGraph

variable {view : SchemaView} {document : Document} {built : List NamedFragment} {σ : Assignment}
  {path : FieldPath} {scope : ScopePath} {key : Name}

/-! ## What entries tell -/

namespace EntityStorage

theorem addedBelow_congr {site : FieldPath} {outer outer' : ScopePath} {guard : Inclusion}
    {entities : List Entity} {slot : Slot} (same : (outer == outer') = true)
    (h : addedBelow site outer guard entities σ path scope slot) :
    addedBelow site outer' guard entities σ path scope slot := by
  obtain ⟨d, mem, eq, ⟨below, at_, holds⟩, allowed⟩ := h
  refine ⟨d, mem, eq, ⟨below, BEq.trans ?_ at_, holds⟩, allowed⟩
  apply ScopePath.concat_congr _ BEq.rfl
  unfold innerScope
  split
  · exact BEq.symm same
  · exact BEq.rfl

theorem holds_innerGuard_merge {guard guard' : Inclusion} {q : FieldPath} :
    (innerGuard (guard.merge guard') q).holds σ = true
      ↔ (innerGuard guard q).holds σ = true ∨ (innerGuard guard' q).holds σ = true := by
  unfold innerGuard
  split
  · rw [Inclusion.holds_merge, Bool.or_eq_true]
  · exact (or_self_iff).symm

theorem addedBelow_merge {site : FieldPath} {outer : ScopePath} {guard guard' : Inclusion}
    {entities : List Entity} {slot : Slot} :
    addedBelow site outer (guard.merge guard') entities σ path scope slot
      ↔ addedBelow site outer guard entities σ path scope slot
        ∨ addedBelow site outer guard' entities σ path scope slot := by
  simp only [addedBelow, holds_innerGuard_merge, and_or_left, exists_or]

/-- Told of an entry, that a field is included on the entity at a path, in a scope: the field is the
entry, or the entry spreads a fragment that includes it there. -/
def toldAt (built : List NamedFragment) (σ : Assignment) (path : FieldPath) (scope : ScopePath)
    (key : Name) : Tale
  | site, inScope, .field k, c =>
      site = path ∧ (inScope == scope) = true ∧ k = key ∧ c.holds σ = true
  | site, inScope, .fragment name, c => ∃ f, NamedFragment.find? built name = some f
      ∧ addedBelow site inScope c f.built.entities.entities σ path scope (.field key)

theorem toldAt_even : (toldAt built σ path scope key).Even where
  of_beq := by
    rintro site inScope inScope' (k | name) c same
    · rintro ⟨at_, here, rest⟩
      exact ⟨at_, BEq.trans (BEq.symm same) here, rest⟩
    · rintro ⟨f, found, added⟩
      exact ⟨f, found, addedBelow_congr same added⟩
  merge := by
    rintro site inScope (k | name) c c'
    · simp only [toldAt, Inclusion.holds_merge, Bool.or_eq_true, and_or_left]
    · simp only [toldAt, addedBelow_merge, and_or_left, exists_or]

end EntityStorage

/-! ## What a walk tells -/

/-- What is told of a field on an entity adds up to what the walk meets there. -/
theorem tally_occurs (fragments : ∀ g ∈ built, g.Inlined view document) :
    Tally view built (EntityStorage.toldAt built σ path scope key) fun p ss =>
      Occurs (Meets view document p ss) σ path scope (.field key) where
  nil := not_someMet fun _ _ _ => not_meets_nil
  cons := (occurs_congr fun _ _ _ => meets_cons _ _).trans occurs_or
  skipped skips := not_someMet fun _ _ _ => not_meets_skipped skips
  field := by
    intro p f own unguarded included
    have one : EntityStorage.toldAt built σ path scope key p.entity p.scope (.field f.responseKey) own
        ↔ Occurs (fun q t c => q = p ∧ t = .field f ∧ c = own) σ path scope (.field key) := by
      rw [occurs_one (.field f.responseKey) rfl]
      simp only [EntityStorage.toldAt, unguarded, Slot.field.injEq, List.not_mem_nil,
        false_implies, implies_true, and_true, eq_comm (a := key), eq_comm (a := path)]
    rw [one, occurs_congr fun q t c => meets_field included, occurs_or]
    exact or_congr_right someMet_and
  inline read opened := occurs_congr fun _ _ _ => meets_inline read opened
  spread := by
    intro p name directives own fragment unguarded included found
    obtain ⟨mem, named⟩ := NamedFragment.mem_of_find? found
    obtain ⟨⟨d, defined, same⟩, inlines⟩ := fragments fragment mem
    rw [named] at defined
    have inside : EntityStorage.toldAt built σ path scope key p.entity
          (p.follow fragment.definition.typeCondition own).scope (.fragment name) own
        ↔ Occurs (Meets view document (p.follow fragment.definition.typeCondition own)
            fragment.definition.selections) σ path scope (.field key) := by
      have guarded : (p.follow fragment.definition.typeCondition own).guards = [own] :=
        congrArg (own :: ·) unguarded
      refine Iff.trans ?_ (inlines.addedBelow_iff _ rfl guarded)
      simp only [EntityStorage.toldAt, found, Option.some.injEq, exists_eq_left', Place.follow]
    rw [inside, ← same, occurs_congr fun q t c => meets_spread included defined, occurs_or]
    refine or_iff_right ?_
    rintro ⟨q, t, c, ⟨-, rfl, -⟩, slotted, -⟩
    cases slotted

/-- The direct selections of a definition tell what its walk meets. -/
theorem WalkedFrom.tells (fragments : ∀ g ∈ built, g.Inlined view document)
    {source : SourceDefinition} {rootName : Name} {b : BuiltSelections}
    (h : WalkedFrom view built source rootName b) :
    b.rootField.selectionSet.Tells (b.entities.Located (EntityStorage.toldAt built σ path scope key))
      ↔ Occurs (Meets view document (.root source.definition.rootType)
          source.definition.selections) σ path scope (.field key) :=
  (h.adds_tally EntityStorage.toldAt_even (tally_occurs fragments) fragments).2

/-! ## Contributions -/

/-- A definition spreads a fragment, at any depth of the field at its root. -/
structure BuiltSelections.Spreads (b : BuiltSelections) (s : NamedSpread)
    (fragment : NamedFragment) : Prop where
  found : ∃ set, b.rootField.selectionSet.Within set ∧ s ∈ set.direct.namedFragments
  listed : fragment ∈ b.referenced
  handle : fragment.handle = s.fragment

/-- A part of a definition selects a field on an entity, in a scope, when certain conditions hold: a
field of a selection set that is on the entity; a field on the root of a fragment that is spread on
the entity; or a field deeper in a fragment, at the path from the spread to the entity. -/
inductive Contribution (b : BuiltSelections) (e : Entity) (scope : ScopePath) (key : Name) :
    List Inclusion → Prop
  | field {set : SelectionSet} {f : Field} (within : b.rootField.selectionSet.Within set)
      (entity : set.typeInfo.entity = e.id) (inScope : (set.typeInfo.scopePath == scope) = true)
      (mem : f ∈ set.direct.fields) (named : f.responseKey = key) :
      Contribution b e scope key [f.inclusion]
  | root {s : NamedSpread} {fragment : NamedFragment} {d : Entity} {below : ScopePath}
      {m : MergedField} (spreads : b.Spreads s fragment) (entity : s.typeInfo.entity = e.id)
      (mem : d ∈ fragment.built.entities.entities) (isRoot : d.location.isRoot = true)
      (held : d.tree.field? below key = some m)
      (inScope : (s.typeInfo.scopePath.concat below == scope) = true) :
      Contribution b e scope key [m.inclusion, s.inclusion]
  | deeper {s : NamedSpread} {fragment : NamedFragment} {site d : Entity} {m : MergedField}
      (spreads : b.Spreads s fragment) (at_ : b.entities.get? s.typeInfo.entity = some site)
      (mem : d ∈ fragment.built.entities.entities) (notRoot : d.location.isRoot = false)
      (path : e.location.path = site.location.path.appendAll d.location.path.components)
      (held : d.tree.field? scope key = some m) : Contribution b e scope key [m.inclusion]

/-- Something contributes a field whose conditions hold. -/
def Contributes (σ : Assignment) (b : BuiltSelections) (e : Entity) (scope : ScopePath)
    (key : Name) : Prop :=
  ∃ cs, Contribution b e scope key cs ∧ ∀ c ∈ cs, c.holds σ = true

section Contribution

variable {b : BuiltSelections} {e : Entity}

/-- What a fragment's entities add below a spread are the fields of its root, in the scope of the
spread and under its guard, and those of its other entities as they are. -/
theorem EntityStorage.addedBelow_field_iff {site : FieldPath} {outer : ScopePath}
    {guard : Inclusion} {entities : List Entity} (keyed : ∀ d ∈ entities, d.tree.Keyed) :
    addedBelow site outer guard entities σ path scope (.field key)
      ↔ (∃ d ∈ entities, d.location.isRoot = true ∧ path = site ∧ ∃ below m,
          (outer.concat below == scope) = true ∧ d.tree.field? below key = some m
            ∧ m.inclusion.holds σ = true ∧ guard.holds σ = true)
        ∨ ∃ d ∈ entities, d.location.isRoot = false
          ∧ path = site.appendAll d.location.path.components
          ∧ ∃ m, d.tree.field? scope key = some m ∧ m.inclusion.holds σ = true := by
  constructor
  · rintro ⟨d, mem, eq, ⟨below, inScope, holds⟩, allowed⟩
    cases root : d.location.isRoot with
    | true =>
        have isRoot : d.location.path.isRoot = true := root
        rw [innerScope, if_pos isRoot] at inScope
        rw [innerGuard, if_pos isRoot] at allowed
        rw [FieldPath.isRoot_iff.mp isRoot, FieldPath.appendAll_root] at eq
        obtain ⟨m, held, included⟩ := (keyed d mem).holds_field_iff.mp holds
        exact Or.inl ⟨d, mem, root, eq, below, m, inScope, held, included, allowed⟩
    | false =>
        have notRoot : ¬ d.location.path.isRoot = true := Bool.eq_false_iff.mp root
        rw [innerScope, if_neg notRoot, ScopePath.root_concat] at inScope
        obtain ⟨m, held, included⟩ := (keyed d mem).holds_field_iff.mp (holds.of_beq inScope)
        exact Or.inr ⟨d, mem, root, eq, m, held, included⟩
  · rintro (⟨d, mem, root, rfl, below, m, inScope, held, included, allowed⟩
      | ⟨d, mem, root, rfl, m, held, included⟩)
    · have isRoot : d.location.path.isRoot = true := root
      have holds := (keyed d mem).holds_field_iff.mpr ⟨m, held, included⟩
      refine ⟨d, mem, ?_, ⟨below, ?_, holds⟩, ?_⟩
      · rw [FieldPath.isRoot_iff.mp isRoot, FieldPath.appendAll_root]
      · rwa [innerScope, if_pos isRoot]
      · rwa [innerGuard, if_pos isRoot]
    · have notRoot : ¬ d.location.path.isRoot = true := Bool.eq_false_iff.mp root
      have holds := (keyed d mem).holds_field_iff.mpr ⟨m, held, included⟩
      refine ⟨d, mem, rfl, ⟨scope, ?_, holds⟩, ?_⟩
      · rw [innerScope, if_neg notRoot, ScopePath.root_concat]
        exact BEq.rfl
      · rw [innerGuard, if_neg notRoot]
        rfl

/-- What contributes to an entity is what is told of it. -/
theorem contributes_iff (library : Library view document built) (wf : b.entities.WellFormed)
    (shares : b.Shares built) (mem : e ∈ b.entities.entities) :
    Contributes σ b e scope key
      ↔ b.rootField.selectionSet.Tells
          (b.entities.Located (EntityStorage.toldAt built σ e.location.path scope key)) := by
  have located : b.entities.pathOf? e.id = some e.location.path :=
    EntityStorage.pathOf?_eq_some_iff.mpr ⟨e, wf.get?_id mem, rfl⟩
  have found : ∀ {s : NamedSpread} {fragment : NamedFragment}, b.Spreads s fragment →
      NamedFragment.find? built s.fragment.name = some fragment := by
    intro s fragment spreads
    rw [← spreads.handle]
    exact shares.refers fragment spreads.listed
  have keyed : ∀ {name : Name} {fragment : NamedFragment},
      NamedFragment.find? built name = some fragment →
      ∀ d ∈ fragment.built.entities.entities, d.tree.Keyed := by
    intro name fragment found
    have inlined := library.inlined fragment (NamedFragment.mem_of_find? found).1
    exact inlined.entities.wellFormed.keyed
  rw [SelectionSet.tells_iff_within]
  constructor
  · rintro ⟨_, contribution, holds⟩
    cases contribution with
    | field within entity inScope memF named =>
        refine ⟨_, within, Or.inl ⟨_, memF, ?_⟩⟩
        exact ⟨_, entity ▸ located, rfl, inScope, named, holds _ (List.mem_singleton_self _)⟩
    | @root s fragment d below m spreads entity memD isRoot held inScope =>
        obtain ⟨set, within, memS⟩ := spreads.found
        obtain ⟨included, allowed⟩ : m.inclusion.holds σ = true ∧ s.inclusion.holds σ = true := by
          simpa using holds
        refine ⟨set, within, Or.inr ⟨s, memS, _, entity ▸ located, _, found spreads, ?_⟩⟩
        rw [EntityStorage.addedBelow_field_iff (keyed (found spreads))]
        exact Or.inl ⟨d, memD, isRoot, rfl, below, m, inScope, held, included, allowed⟩
    | @deeper s fragment site d m spreads at_ memD notRoot path held =>
        obtain ⟨set, within, memS⟩ := spreads.found
        have entered : b.entities.pathOf? s.typeInfo.entity = some site.location.path :=
          EntityStorage.pathOf?_eq_some_iff.mpr ⟨site, at_, rfl⟩
        refine ⟨set, within, Or.inr ⟨s, memS, _, entered, _, found spreads, ?_⟩⟩
        rw [EntityStorage.addedBelow_field_iff (keyed (found spreads))]
        exact Or.inr ⟨d, memD, notRoot, path, m, held, holds _ (List.mem_singleton_self _)⟩
  · rintro ⟨set, within, ⟨f, memF, _, at_, rfl, inScope, named, holds⟩ | ⟨s, memS, told⟩⟩
    · have entity := wf.pathOf?_injective at_ located
      exact ⟨_, .field within entity inScope memF named, List.forall_mem_singleton.mpr holds⟩
    · -- The fragment that is found under the spread's name is the one that is listed.
      obtain ⟨site, at_, fragment, named, added⟩ := told
      obtain ⟨f, listed, same⟩ := shares.known set within s memS
      have spreads : b.Spreads s f := ⟨⟨set, within, memS⟩, listed, same⟩
      cases named.symm.trans (found spreads)
      rcases (EntityStorage.addedBelow_field_iff (keyed named)).mp added with
        ⟨d, memD, isRoot, here, below, m, inScope, held, included, allowed⟩
        | ⟨d, memD, notRoot, path, m, held, included⟩
      · have entity := wf.pathOf?_injective at_ (here ▸ located)
        exact ⟨_, .root spreads entity memD isRoot held inScope, by simp [included, allowed]⟩
      · obtain ⟨entered, get, rfl⟩ := EntityStorage.pathOf?_eq_some_iff.mp at_
        exact ⟨_, .deeper spreads get memD notRoot path held, List.forall_mem_singleton.mpr included⟩

end Contribution

/-- The field of a key that is held under some values exactly when something is, is held when
something can be, and is included when it is. -/
theorem MergedField.held_iff {held : Option MergedField} {P : Assignment → Prop}
    (same : ∀ σ, (∃ m, held = some m ∧ m.inclusion.holds σ = true) ↔ P σ) :
    (held.isSome = true ↔ ∃ σ, P σ)
      ∧ ∀ m, held = some m → ∀ σ, m.inclusion.holds σ = true ↔ P σ := by
  constructor
  · rw [Option.isSome_iff_exists]
    constructor
    · -- No inclusion is contradictory, so that a field that is held is included under some values.
      rintro ⟨m, found⟩
      obtain ⟨σ, holds⟩ := Inclusion.exists_holds m.inclusion
      exact ⟨σ, (same σ).mp ⟨m, found, holds⟩⟩
    · rintro ⟨σ, some⟩
      obtain ⟨m, found, -⟩ := (same σ).mpr some
      exact ⟨m, found⟩
  · intro m found σ
    rw [← same]
    constructor
    · exact fun holds => ⟨m, found, holds⟩
    · rintro ⟨m', found', holds⟩
      cases found.symm.trans found'
      exact holds

/-- The trees of entities and the direct selections of a definition that is built agree on fields.  A
tree holds the field of a key in a scope exactly when something contributes it whose conditions can
hold, and then the field is included exactly when the conditions of something that contributes it
hold. -/
theorem trees_agree_with_direct_selections (document : Document) (s : Session)
    (reachable : s.Reachable document) (d : ExecutableDefinition) (b : BuiltSelections)
    (builds : s.Builds d b) (e : Entity) (mem : e ∈ b.entities.entities) (scope : ScopePath)
    (key : Name) :
    ((e.tree.field? scope key).isSome = true
        ↔ ∃ cs, Contribution b e scope key cs ∧ ∃ σ, ∀ c ∈ cs, c.holds σ = true)
      ∧ ∀ m, e.tree.field? scope key = some m → ∀ σ, m.inclusion.holds σ = true
        ↔ ∃ cs, Contribution b e scope key cs ∧ ∀ c ∈ cs, c.holds σ = true := by
  obtain ⟨built, id, rootName, library, walked⟩ := builds.walked reachable
  have inlines := walked.inlines library.inlined
  have held : ∀ σ, (∃ m, e.tree.field? scope key = some m ∧ m.inclusion.holds σ = true)
      ↔ Contributes σ b e scope key := by
    intro σ
    calc (∃ m, e.tree.field? scope key = some m ∧ m.inclusion.holds σ = true)
        ↔ Occurs (Meets s.view document (.root d.rootType) d.selections) σ e.location.path scope
            (.field key) := inlines.field?_iff mem
      _ ↔ b.rootField.selectionSet.Tells
            (b.entities.Located (EntityStorage.toldAt built σ e.location.path scope key)) :=
          (walked.tells library.inlined).symm
      _ ↔ Contributes σ b e scope key :=
          (contributes_iff library inlines.wellFormed (walked.shares library) mem).symm
  -- It remains to move the assignment past the contribution.
  obtain ⟨isHeld, included⟩ := MergedField.held_iff held
  refine ⟨isHeld.trans ?_, included⟩
  constructor
  · rintro ⟨σ, cs, contribution, holds⟩
    exact ⟨cs, contribution, σ, holds⟩
  · rintro ⟨cs, contribution, σ, holds⟩
    exact ⟨σ, cs, contribution, holds⟩

/-- The name of a hero's friend, which only a fragment selects that is spread under a condition, is
contributed in `query { hero { ...Friendly @include(if: $a) } }`. -/
theorem friends_name_is_contributed :
    let friend := Heroes.heroField "friend" [] [.field Heroes.nameField]
    let hero := Heroes.heroField "hero" [] [.fragmentSpread "Friendly" [Heroes.includedIf "a"]]
    let o := Heroes.query [.field hero]
    let document : Document := ⟨[o], [⟨⟨"Friendly", "Hero", [], [.field friend]⟩, none⟩]⟩
    ∃ (s : Session) (b : BuiltSelections) (e : Entity), s.Reachable document
      ∧ s.Builds (.operation o.definition) b ∧ e ∈ b.entities.entities
      ∧ e.location.path = ⟨[⟨"hero", .named "Hero"⟩, ⟨"friend", .named "Hero"⟩]⟩
      ∧ ∃ cs, Contribution b e .root "name" cs ∧ ∃ σ, ∀ c ∈ cs, c.holds σ = true := by
  intro friend hero o document
  obtain ⟨s, b, reachable, -, builds, check⟩ := Session.exists_builds document Heroes.schema o
    (fun b => b.entities.entities.any fun e =>
      decide (e.location.path = ⟨[⟨"hero", .named "Hero"⟩, ⟨"friend", .named "Hero"⟩]⟩)
        && (e.tree.field? .root "name").isSome) (by decide +kernel)
  obtain ⟨e, mem, check⟩ := List.any_eq_true.mp check
  obtain ⟨at_, held⟩ := Bool.and_eq_true_iff.mp check
  exact ⟨s, b, e, reachable, builds, mem, of_decide_eq_true at_,
    (trees_agree_with_direct_selections document s reachable _ b builds e mem .root "name").1.mp held⟩

end SelectionGraph
