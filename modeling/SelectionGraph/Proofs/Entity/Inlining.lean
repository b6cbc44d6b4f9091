import SelectionGraph.Proofs.Entity.FragmentMerge
import SelectionGraph.Proofs.Entity.Meets
import SelectionGraph.Proofs.Session.Reachable

/-!
# Inlining — merging fragments is writing them out

A build walks every fragment once by itself and merges what that came to at each spread.  The
entities it ends with are those of the single walk that follows the spreads:

* `EntityStorage.Inlines`    — a storage holds what the walk from a root meets, and nothing else;
* `adds_fragment`            — what a fragment adds at a spread, if its own storage does so;
* `Walked.adds`              — what a walk adds, by induction on it;
* `WalkedFrom.inlines`, `Library.inlined` — so of every definition, by induction on the fragments;
* `entities_inline_fragments` — the entities and fields of whatever a session builds.
-/

namespace SelectionGraph

variable {view : SchemaView} {document : Document}

/-- A storage holds what walking selections from the root meets. -/
structure EntityStorage.Inlines (view : SchemaView) (document : Document) (type : Name)
    (ss : List Selection) (s : EntityStorage) : Prop where
  wellFormed : s.WellFormed
  has : ∀ path, s.Has path ↔ path = .root ∨ Reaches view (Meets view document (.root type) ss) path
  holds : ∀ σ path scope slot,
    s.Holds σ path scope slot ↔ Occurs (Meets view document (.root type) ss) σ path scope slot

/-- The tree of an entity holds a field that is included exactly when one is met there that is. -/
theorem EntityStorage.Inlines.field?_iff {type : Name} {ss : List Selection} {s : EntityStorage}
    (h : s.Inlines view document type ss) {e : Entity} (mem : e ∈ s.entities) {σ : Assignment}
    {scope : ScopePath} {key : Name} :
    (∃ f, e.tree.field? scope key = some f ∧ f.inclusion.holds σ = true)
      ↔ Occurs (Meets view document (.root type) ss) σ e.location.path scope (.field key) := by
  rw [← (h.wellFormed.keyed e mem).holds_field_iff, ← h.holds]
  -- At the path of `e` the storage holds what the tree of `e` holds.
  constructor
  · exact fun holds => ⟨e, mem, rfl, holds⟩
  · rintro ⟨e', mem', same, holds⟩
    exact h.wellFormed.unique mem' mem same ▸ holds

/-- A built fragment is one of the document, and its entities are those that its walk meets. -/
structure NamedFragment.Inlined (view : SchemaView) (document : Document) (f : NamedFragment) :
    Prop where
  defined : ∃ d, document.fragment? f.name = some d ∧ d.definition = f.definition
  entities : f.built.entities.Inlines view document f.definition.typeCondition f.definition.selections

/-! ## Fragments -/

namespace Place

variable {σ : Assignment}

theorem lift_scope (site p : Place) :
    (site.lift p).scope = (EntityStorage.innerScope site.scope p.entity).concat p.scope := by
  unfold lift EntityStorage.innerScope
  dsimp only
  split
  · rfl
  · rw [ScopePath.root_concat]

theorem lift_guards (site p : Place) {guard : Inclusion} (guarded : site.guards = [guard]) :
    (∀ g ∈ (site.lift p).guards, g.holds σ = true)
      ↔ (∀ g ∈ p.guards, g.holds σ = true)
        ∧ (EntityStorage.innerGuard guard p.entity).holds σ = true := by
  unfold lift EntityStorage.innerGuard
  dsimp only
  split
  · rw [guarded, List.forall_mem_append, List.forall_mem_singleton]
  · exact (and_iff_left rfl).symm

end Place

/-- One storage comes from another by adding what is met. -/
def EntityStorage.Adds (view : SchemaView) (met : Place → Selection → Inclusion → Prop)
    (s s' : EntityStorage) : Prop :=
  Grows s s' (Reaches view met) (Occurs met)

namespace EntityStorage.Adds

variable {met met' : Place → Selection → Inclusion → Prop} {s s' s'' : EntityStorage}

theorem nothing (h : s.WellFormed) (none : ∀ q t c, ¬ met q t c) : s.Adds view met s := by
  refine (Grows.refl h).congr ?_ ?_
  · simp [Reaches, none]
  · simp [Occurs, none]

theorem congr (h : s.Adds view met s') (same : ∀ q t c, met q t c ↔ met' q t c) :
    s.Adds view met' s' := by
  obtain rfl : met = met' := by
    funext q t c
    exact propext (same q t c)
  exact h

theorem trans (h : s.Adds view met s') (h' : s'.Adds view met' s'') :
    s.Adds view (fun q t c => met q t c ∨ met' q t c) s'' := by
  refine (Grows.trans h h').congr ?_ ?_
  · intro p
    simp only [Reaches, or_and_right, exists_or]
  · exact fun σ p sc slot => occurs_or.symm

end EntityStorage.Adds

/-- What is met from a site in a fragment is what is met from the fragment's root, moved there. -/
theorem meets_site {site : Place} {type : Name} (typed : site.type = type) {ss : List Selection}
    {q : Place} {t : Selection} {c : Inclusion} :
    Meets view document site ss q t c
      ↔ ∃ q', Meets view document (.root type) ss q' t c ∧ q = site.lift q' := by
  rw [← meets_lift, Place.lift_root typed]

/-- What the entities of a fragment add at a spread is what the walk from there meets in it. -/
theorem EntityStorage.Inlines.addedBelow_iff {fragment : EntityStorage} {type : Name}
    {ss : List Selection} (inlines : fragment.Inlines view document type ss) (site : Place)
    {guard : Inclusion} (typed : site.type = type) (guarded : site.guards = [guard])
    {σ : Assignment} {p : FieldPath} {scope : ScopePath} {slot : Slot} :
    addedBelow site.entity site.scope guard fragment.entities σ p scope slot
      ↔ Occurs (Meets view document site ss) σ p scope slot := by
  rw [EntityStorage.addedBelow_iff]
  simp only [inlines.holds, Occurs, meets_site typed]
  constructor
  · rintro ⟨_, rfl, ⟨below, same, q', t, c, met, slotted, rfl, at', holds, guards⟩, allowed⟩
    refine ⟨_, t, c, ⟨q', met, rfl⟩, slotted, rfl, ?_, holds, ?_⟩
    · rw [Place.lift_scope]
      exact BEq.trans (ScopePath.concat_congr BEq.rfl at') same
    · exact (Place.lift_guards site q' guarded).mpr ⟨guards, allowed⟩
  · rintro ⟨_, t, c, ⟨q', met, rfl⟩, slotted, rfl, same, holds, guards⟩
    rw [Place.lift_scope] at same
    obtain ⟨own, allowed⟩ := (Place.lift_guards site q' guarded).mp guards
    exact ⟨q'.entity, rfl, ⟨q'.scope, same, q', t, c, met, slotted, rfl, BEq.rfl, holds, own⟩,
      allowed⟩

/-- What a fragment adds at a spread is what the walk from the place of the spread meets in it. -/
theorem adds_fragment {s s' fragment : EntityStorage} (h : s.WellFormed) {type : Name}
    {ss : List Selection} (inlines : fragment.Inlines view document type ss) {id : EntityId}
    (site : Place) {guard : Inclusion} (typed : site.type = type) (guarded : site.guards = [guard])
    (at_ : s.pathOf? id = some site.entity)
    (merged : s.mergeFragmentEntities id site.scope guard fragment = .ok s') :
    s.Adds view (Meets view document site ss) s' := by
  have here := EntityStorage.has_iff.mpr ⟨id, at_⟩
  -- Merging also reaches the site, which the walk does not count, since it is there.
  have back : ∀ p, p = site.entity → s.Has p := fun p eq => eq ▸ here
  refine (EntityStorage.Grows.reaching_iff back).mp ?_
  refine (EntityStorage.grows_mergeFragmentEntities h inlines.wellFormed at_ merged).congr ?_ ?_
  · intro p
    simp only [inlines.has, Reaches, meets_site typed]
    constructor
    · rintro ⟨q, rfl | ⟨q', f, c, met, isComposite, rfl⟩, rfl⟩
      · exact Or.inr (FieldPath.appendAll_root _)
      · exact Or.inl ⟨_, f, c, ⟨q', met, rfl⟩, isComposite,
          congrArg Place.entity (Place.lift_below site q' f)⟩
    · rintro (⟨_, f, c, ⟨q', met, rfl⟩, isComposite, rfl⟩ | rfl)
      · exact ⟨(q'.below f).entity, Or.inr ⟨q', f, c, met, isComposite, rfl⟩,
          congrArg Place.entity (Place.lift_below site q' f).symm⟩
      · exact ⟨.root, Or.inl rfl, (FieldPath.appendAll_root _).symm⟩
  · intro σ p scope slot
    rw [← EntityStorage.addedBelow_iff, inlines.addedBelow_iff site typed guarded]

/-! ## A walk -/

/-- The place of a walk whose entity is at a path. -/
def TypeInfo.place (info : TypeInfo) (path : FieldPath) : Place :=
  ⟨path, info.scopePath, info.parentType, []⟩

/-- The build enters the scope of a fragment's type condition where the walk of the place does. -/
theorem Walk.spreadSite_place (view : SchemaView) (info : TypeInfo) (path : FieldPath)
    (typeCondition : Name) (guard : Inclusion) :
    (spreadSite view info typeCondition).entity = info.entity
      ∧ (spreadSite view info typeCondition).scopePath
        = ((info.place path).follow typeCondition guard).scope := by
  unfold spreadSite spreadScope? Place.follow TypeInfo.place
  dsimp only
  split <;> rename_i opened <;> split at opened <;> simp_all [TypeInfo.enter]

section OneSelection

variable {s s' : EntityStorage} {info : TypeInfo} {path : FieldPath}

theorem occurs_one {p : Place} {t : Selection} {own : Inclusion} (slot : Slot)
    (slotted : t.slot? = some slot) {σ : Assignment} {path : FieldPath} {scope : ScopePath}
    {slot' : Slot} :
    Occurs (fun q s c => q = p ∧ s = t ∧ c = own) σ path scope slot'
      ↔ path = p.entity ∧ (p.scope == scope) = true ∧ slot' = slot ∧ own.holds σ = true
        ∧ ∀ g ∈ p.guards, g.holds σ = true := by
  constructor
  · rintro ⟨q, s, c, ⟨rfl, rfl, rfl⟩, slotted', rfl, same, rest⟩
    cases slotted.symm.trans slotted'
    exact ⟨rfl, same, rfl, rest⟩
  · rintro ⟨rfl, same, rfl, rest⟩
    exact ⟨p, t, own, ⟨rfl, rfl, rfl⟩, slotted, rfl, same, rest⟩

/-- A field of leaf type. -/
theorem adds_leaf (h : s.WellFormed) (at_ : s.pathOf? info.entity = some path) {f : FieldSelection}
    (isLeaf : view.isComposite f.type.innerName = .ok false) (own : Inclusion) :
    s.Adds view (fun q t c => q = info.place path ∧ t = .field f ∧ c = own)
      (s.modifyTree info.entity
        (·.insertField info.scopePath ⟨f.responseKey, f.name, f.type, own⟩)) := by
  refine (EntityStorage.grows_insertField h at_ info.scopePath _).congr ?_ ?_
  · intro p
    refine iff_of_false id ?_
    rintro ⟨q, g, c, ⟨rfl, same, rfl⟩, isComposite, -⟩
    cases same
    cases isLeaf.symm.trans isComposite
  · intro σ p scope slot
    rw [occurs_one (.field f.responseKey) rfl]
    simp [TypeInfo.place]

/-- A field of composite type, with its entity. -/
theorem adds_entity (h : s.WellFormed) (at_ : s.pathOf? info.entity = some path)
    {f : FieldSelection} (isComposite : view.isComposite f.type.innerName = .ok true)
    (own : Inclusion) {id : EntityId}
    (selected : (s.modifyTree info.entity (·.insertField info.scopePath
      ⟨f.responseKey, f.name, f.type, own⟩)).entityForField info.entity ⟨f.responseKey, f.type⟩
        = .ok (id, s')) :
    s.Adds view (fun q t c => q = info.place path ∧ t = .field f ∧ c = own) s'
      ∧ s'.pathOf? id = some (path.append ⟨f.responseKey, f.type⟩) := by
  have inserted := EntityStorage.grows_insertField h at_ info.scopePath
    ⟨f.responseKey, f.name, f.type, own⟩
  obtain ⟨reached, at'⟩ := EntityStorage.grows_entityForField inserted.wellFormed
    (inserted.extended.paths _ _ at_) selected
  refine ⟨(inserted.trans reached).congr ?_ ?_, at'⟩
  · intro p
    constructor
    · rintro (never | selects)
      · exact never.elim
      · exact ⟨_, f, own, ⟨rfl, rfl, rfl⟩, isComposite, selects⟩
    · rintro ⟨q, g, c, ⟨rfl, same, rfl⟩, -, rfl⟩
      cases same
      exact Or.inr rfl
  · intro σ p scope slot
    rw [occurs_one (.field f.responseKey) rfl]
    simp [TypeInfo.place]

/-- The spread of a fragment, without what is spread. -/
theorem adds_reference (view : SchemaView) (h : s.WellFormed)
    (at_ : s.pathOf? info.entity = some path) (name : Name) (directives : List Directive)
    (own : Inclusion) :
    s.Adds view (fun q t c => q = info.place path ∧ t = .fragmentSpread name directives ∧ c = own)
      (s.modifyTree info.entity (·.insertFragment info.scopePath name own)) := by
  refine (EntityStorage.grows_insertFragment h at_ info.scopePath name own).congr ?_ ?_
  · intro p
    refine iff_of_false id ?_
    rintro ⟨q, g, c, ⟨-, same, -⟩, -⟩
    cases same
  · intro σ p scope slot
    rw [occurs_one (.fragment name) rfl]
    simp [TypeInfo.place]

end OneSelection

theorem TypeInfo.parentType_enter (info : TypeInfo) (scope : Scope) (isRootFieldType : Bool) :
    (info.enter scope isRootFieldType).parentType = scope.typeCondition := by
  simp [enter, parentType, ScopePath.typeOn, ScopePath.last?, ScopePath.append]

theorem TypeInfo.last?_enter (info : TypeInfo) (scope : Scope) (isRootFieldType : Bool) :
    (info.enter scope isRootFieldType).scopePath.last? = some scope := by
  simp [enter, ScopePath.last?, ScopePath.append]

section InlineFragment

variable {info : TypeInfo} {path : FieldPath} {condition : Option Name}
  {conditions : Option Conjunction} {deferral : Deferral}

/-- An inline fragment that is part of its set is walked where the set is. -/
theorem TypeInfo.enter_place_flat (flattens : info.flattens condition conditions deferral = true) :
    (info.place path).enter condition conditions deferral = info.place path :=
  if_pos flattens

/-- Any other is walked one scope further. -/
theorem TypeInfo.enter_place (view : SchemaView)
    (opens : info.flattens condition conditions deferral = false) :
    (info.place path).enter condition conditions deferral
      = (info.inside view condition conditions).place path := by
  unfold Place.enter inside place
  rw [parentType_enter]
  exact if_neg (Bool.eq_false_iff.mp opens)

end InlineFragment

/-- What a walk adds to the entities is what the walk that follows the spreads meets.  The induction
is on the walk; its fragments are those for which this is known. -/
theorem Walked.adds {built : List NamedFragment}
    (fragments : ∀ g ∈ built, g.Inlined view document) {info : TypeInfo}
    {direct direct' : DirectSelections} {draft draft' : Draft} {ss : List Selection}
    (h : Walked view built info direct draft ss direct' draft') :
    ∀ {path : FieldPath}, draft.entities.WellFormed → draft.entities.pathOf? info.entity = some path →
      draft.entities.Adds view (Meets view document (info.place path) ss) draft'.entities := by
  induction h with
  | nil =>
      intro path wf at_
      exact .nothing wf fun q t c => not_meets_nil
  | skipped skips _ ih =>
      intro path wf at_
      refine (ih wf at_).congr fun q t c => ?_
      rw [meets_cons _ _]
      exact (or_iff_right (not_meets_skipped skips)).symm
  | @leaf info direct direct₁ direct' draft draft' f ss inclusion included isLeaf added _ ih =>
      intro path wf at_
      have first := adds_leaf wf at_ isLeaf inclusion
      refine (first.trans (ih first.wellFormed (first.extended.paths _ _ at_))).congr fun q t c => ?_
      rw [meets_cons _ ss, meets_field included, isLeaf]
      simp
  | @entity info direct below direct₁ direct' draft draft₁ draft' entities entity f ss inclusion
      included isComposite selected _ added _ ihInner ih =>
      intro path wf at_
      -- The field itself, then what is selected below it, then the other selections.
      obtain ⟨first, at'⟩ := adds_entity wf at_ isComposite inclusion selected
      have inner := ihInner first.wellFormed at'
      have after := first.trans inner
      have rest := ih after.wellFormed (after.extended.paths _ _ at_)
      refine (after.trans rest).congr fun q t c => ?_
      rw [meets_cons _ ss, meets_field included, isComposite]
      simp only [true_and]
      rfl
  | @flat info direct direct₁ direct' draft draft₁ draft' condition directives inner ss verdict
      conditions deferral read scope deferred flattens _ _ ihInside ih =>
      intro path wf at_
      have inside := ihInside wf at_
      have rest := ih inside.wellFormed (inside.extended.paths _ _ at_)
      refine (inside.trans rest).congr fun q t c => ?_
      rw [meets_cons _ ss, meets_inline read scope, Deferral.said_eq deferred,
        TypeInfo.enter_place_flat flattens]
  | @inline info direct below direct₁ direct' draft draft₁ draft' condition directives inner ss
      verdict conditions deferral read scope deferred opens _ added _ ihInside ih =>
      intro path wf at_
      have inside := ihInside wf at_
      have rest := ih inside.wellFormed (inside.extended.paths _ _ at_)
      refine (inside.trans rest).congr fun q t c => ?_
      rw [meets_cons _ ss, meets_inline read scope, Deferral.said_eq deferred,
        TypeInfo.enter_place view opens]
  | @spread info direct direct₁ direct' draft draft' entities name directives ss inclusion deferral
      fragment included deferred found merged added _ ih =>
      intro path wf at_
      obtain ⟨mem, named⟩ := NamedFragment.mem_of_find? found
      obtain ⟨⟨d, defined, same⟩, inlines⟩ := fragments fragment mem
      rw [named] at defined
      have site := Walk.spreadSite_place view info path fragment.definition.typeCondition inclusion
      rw [site.1, site.2] at merged
      -- The fragment's entities are merged before its spread is recorded.
      have first := adds_fragment wf inlines ((info.place path).follow _ inclusion) rfl rfl at_
        merged
      have second := adds_reference view first.wellFormed (first.extended.paths _ _ at_) name
        directives inclusion
      rw [← named] at second
      have after := first.trans second
      have rest := ih after.wellFormed (after.extended.paths _ _ at_)
      refine (after.trans rest).congr fun q t c => ?_
      rw [meets_cons _ ss, meets_spread included defined, same, named]
      exact or_congr_left or_comm

/-! ## Definitions -/

theorem WalkedFrom.inlines {built : List NamedFragment}
    (fragments : ∀ g ∈ built, g.Inlined view document) {source : SourceDefinition} {rootName : Name}
    {b : BuiltSelections} (h : WalkedFrom view built source rootName b) :
    b.entities.Inlines view document source.definition.rootType source.definition.selections := by
  obtain ⟨direct, draft, walked, rfl⟩ := h
  have start := EntityStorage.start_wellFormed source
  have adds := walked.adds fragments start start.rootFirst
  have root : (source.info view).place .root = .root source.definition.rootType :=
    congrArg Place.root source.rootType_eq
  rw [root] at adds
  refine ⟨adds.wellFormed, fun path => (adds.has path).trans ?_, fun σ path scope slot =>
    (adds.holds σ path scope slot).trans ?_⟩
  · exact or_congr_left EntityStorage.has_start
  · exact or_iff_right EntityStorage.not_holds_start

/-- The fragments of a session, one after the other: each was walked with those before it. -/
theorem Library.inlined {built : List NamedFragment} (h : Library view document built) :
    ∀ g ∈ built, g.Inlined view document := by
  refine h.induction ?_
  intro built f name text id b _ fragments defined walked
  obtain rfl := Document.name_of_fragment? defined
  exact ⟨⟨f, defined, rfl⟩, walked.inlines fragments⟩

/-- The entities of a definition are its own. -/
theorem WalkedFrom.source_entities {built : List NamedFragment} (library : Library view document built)
    {source : SourceDefinition} {rootName : Name} {b : BuiltSelections}
    (h : WalkedFrom view built source rootName b) : b.entities.source = source := by
  obtain ⟨direct, draft, walked, rfl⟩ := h
  have start := EntityStorage.start_wellFormed source
  exact (walked.adds library.inlined start start.rootFirst).extended.source

theorem Session.Builds.inlines {s : Session} (reachable : s.Reachable document)
    {definition : ExecutableDefinition} {b : BuiltSelections} (h : s.Builds definition b) :
    b.entities.Inlines s.view document definition.rootType definition.selections := by
  obtain ⟨built, id, rootName, library, walked⟩ := h.walked reachable
  exact walked.inlines library.inlined

/-- Merging fragments is writing them out: the entities of whatever a session builds are the root
and those that the fields met by its walk select, and the tree of an entity holds a field in a scope
exactly when the walk meets one there under satisfiable conditions, and then under the same
values. -/
theorem entities_inline_fragments {s : Session} (reachable : s.Reachable document)
    {definition : ExecutableDefinition} {b : BuiltSelections} (h : s.Builds definition b) :
    let met := Meets s.view document (.root definition.rootType) definition.selections
    (∀ path, b.entities.Has path ↔ path = .root ∨ Reaches s.view met path)
      ∧ ∀ e ∈ b.entities.entities, ∀ scope key,
        ((e.tree.field? scope key).isSome = true
          ↔ ∃ σ, Occurs met σ e.location.path scope (.field key))
        ∧ ∀ f, e.tree.field? scope key = some f → ∀ σ,
          f.inclusion.holds σ = true ↔ Occurs met σ e.location.path scope (.field key) := by
  intro met
  have inlines := h.inlines reachable
  refine ⟨inlines.has, fun e mem scope key => ?_⟩
  have field : ∀ σ, (∃ f, e.tree.field? scope key = some f ∧ f.inclusion.holds σ = true)
      ↔ Occurs met σ e.location.path scope (.field key) := fun σ => inlines.field?_iff mem
  constructor
  · rw [Option.isSome_iff_exists]
    constructor
    · -- No inclusion is contradictory, so that a field that is held is met under some values.
      rintro ⟨f, found⟩
      obtain ⟨σ, holds⟩ := Inclusion.exists_holds f.inclusion
      exact ⟨σ, (field σ).mp ⟨f, found, holds⟩⟩
    · rintro ⟨σ, occurs⟩
      obtain ⟨f, found, -⟩ := (field σ).mpr occurs
      exact ⟨f, found⟩
  · intro f found σ
    rw [← field]
    constructor
    · exact fun holds => ⟨f, found, holds⟩
    · rintro ⟨f', found', holds⟩
      cases found.symm.trans found'
      exact holds

/-- The friend of a hero, selected in a fragment that is spread under a condition, is an entity of
`query { hero { ...Friendly @include(if: $a) } }`. -/
theorem friend_is_reached :
    let friend := Heroes.heroField "friend" [] [.field Heroes.nameField]
    let hero := Heroes.heroField "hero" [] [.fragmentSpread "Friendly" [Heroes.includedIf "a"]]
    let o := Heroes.query [.field hero]
    let document : Document := ⟨[o], [⟨⟨"Friendly", "Hero", [], [.field friend]⟩, none⟩]⟩
    ∃ (s : Session) (b : BuiltSelections), s.Reachable document
      ∧ s.Builds (.operation o.definition) b
      ∧ b.entities.Has ⟨[⟨"hero", .named "Hero"⟩, ⟨"friend", .named "Hero"⟩]⟩ := by
  intro friend hero o document
  obtain ⟨s, b, reachable, schema, builds, -⟩ := Session.exists_builds document Heroes.schema o
    (fun _ => true) (by decide +kernel)
  have isComposite := Heroes.isComposite_hero schema
  obtain ⟨guard, read⟩ : ∃ guard, Inclusion.ofDirectives [Heroes.includedIf "a"] = .ok (some guard) :=
    ⟨_, rfl⟩
  have met : Meets s.view document (.root "Query") o.definition.selections
      (((Place.root "Query").below hero).follow "Hero" guard) (.field friend) .always := by
    refine .field (List.mem_singleton_self _) rfl isComposite ?_
    refine .spread (List.mem_singleton_self _) read rfl ?_
    exact .here (List.mem_singleton_self _) rfl rfl
  exact ⟨s, b, reachable, builds, ((entities_inline_fragments reachable builds).1 _).mpr
    (Or.inr ⟨_, friend, .always, met, isComposite, rfl⟩)⟩

end SelectionGraph
