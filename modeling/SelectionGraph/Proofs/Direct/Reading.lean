import SelectionGraph.Proofs.Direct.Faithful

/-!
# Reading — the paths that direct selections select

A built definition is read from the field at its root: through fields, through inline fragments and
through the spreads of fragments, and from those on at the roots of the fragments.

* `BuiltSelections.Selects`  — the paths selected when each of them is read with its own condition;
* `Located`                  — the set that an address leads to;
* `Selects.followed`, `Followed.selects` — what is selected is what can be followed in the document;
* `no_selection_is_lost`     — a path that the document selects is selected in what was built;
* `selects_iff_followed`     — exactly the paths are that can be followed there;
* `merging_shares_conditions` — and these are more than the document selects.
-/

namespace SelectionGraph

variable {view : SchemaView} {document : Document} {σ : Assignment}

/-- A set of selections selects a path, after the type conditions entered.  A spread continues at the
root of the fragment that the definition refers to. -/
inductive BuiltSelections.Selects (σ : Assignment) :
    BuiltSelections → SelectionSet → List Name → List Step → Prop
  | key {b : BuiltSelections} {set : SelectionSet} {entered : List Name} {f : Field}
      (mem : f ∈ set.direct.fields) (included : f.inclusion.holds σ = true) :
      Selects σ b set entered [⟨entered, f.responseKey⟩]
  | field {b : BuiltSelections} {set : SelectionSet} {entered : List Name} {f : EntityField}
      {path : List Step} (mem : .entity f ∈ set.direct.fields)
      (included : f.inclusion.holds σ = true) (below : Selects σ b f.selectionSet [] path) :
      Selects σ b set entered (⟨entered, f.responseKey⟩ :: path)
  | scope {b : BuiltSelections} {set : SelectionSet} {entered : List Name} {s : InlineSpread}
      {path : List Step} (mem : s ∈ set.direct.inlineFragments)
      (included : s.typeInfo.conditions.all (Conjunction.holds σ) = true)
      (inside : Selects σ b s.selectionSet
        (entering entered set.typeInfo.parentType s.typeInfo.parentType) path) :
      Selects σ b set entered path
  | spread {b : BuiltSelections} {set : SelectionSet} {entered : List Name} {s : NamedSpread}
      {f : NamedFragment} {path : List Step} (mem : s ∈ set.direct.namedFragments)
      (included : s.inclusion.holds σ = true) (used : f ∈ b.referenced)
      (same : f.handle = s.fragment)
      (inside : Selects σ f.built f.built.rootField.selectionSet (entering entered
        set.typeInfo.parentType f.built.rootField.selectionSet.typeInfo.parentType) path) :
      Selects σ b set entered path

/-! ## Sets at addresses -/

/-- An address of a definition leads to a set: what the definition includes there is what the set
includes. -/
structure Located (b : BuiltSelections) (address : List Turn) (set : SelectionSet) : Prop where
  tidy : set.direct.Tidy (TypeInfo.TypedIn b.entities) (FragmentHandle.KnownIn b.referenced)
  reads : ∀ σ rest, rest ≠ [] → (b.rootField.selectionSet.direct.Includes σ (address ++ rest)
    ↔ set.direct.Includes σ rest)

namespace Located

variable {b : BuiltSelections} {address : List Turn} {set : SelectionSet}

theorem root {type : Name} {ss : List Selection} (h : b.Faithful view document type ss) :
    Located b [] b.rootField.selectionSet :=
  ⟨h.tidy, fun _ _ _ => Iff.rfl⟩

/-- The turn into a field leads to its set, since no other field has its key. -/
theorem field (h : Located b address set) {f : EntityField} (mem : .entity f ∈ set.direct.fields) :
    Located b (address ++ [.field f.responseKey (some f.selectionSet.typeInfo.rootType)])
      f.selectionSet := by
  refine ⟨(h.tidy.entity mem).2, fun σ rest goes => ?_⟩
  rw [List.append_assoc, h.reads σ _ (by simp)]
  change set.direct.Includes σ (.field f.responseKey _ :: rest) ↔ _
  rw [DirectSelections.includes_field]
  constructor
  · rintro ⟨g, memG, key, -, ⟨none, -⟩ | ⟨e, rfl, below⟩⟩
    · exact absurd none goes
    · cases h.tidy.field_unique memG mem key
      exact below
  · intro below
    exact ⟨.entity f, mem, rfl, rfl, Or.inr ⟨f, rfl, below⟩⟩

/-- The turn into a scope leads to the set of its inline fragment. -/
theorem scope (h : Located b address set) {s : InlineSpread} (mem : s ∈ set.direct.inlineFragments)
    {scope : Scope} {deferral : Deferral} (opens : s.Opens scope deferral) :
    Located b (address ++ [.scope scope deferral]) s.selectionSet := by
  refine ⟨(h.tidy.inline mem).2, fun σ rest goes => ?_⟩
  rw [List.append_assoc, h.reads σ _ (by simp)]
  change set.direct.Includes σ (.scope scope deferral :: rest) ↔ _
  rw [DirectSelections.includes_scope]
  constructor
  · rintro ⟨t, memT, opensT, ⟨none, -⟩ | below⟩
    · exact absurd none goes
    · cases h.tidy.inline_unique memT mem (InlineSpread.key_of_opens opensT opens)
      exact below
  · intro below
    exact ⟨s, mem, opens, Or.inr below⟩

end Located

/-! ## Reading is following -/

namespace DirectSelections

/-- A composite field selects on the type of its place. -/
theorem Tidy.parentType_field {s : EntityStorage} {known : FragmentHandle → Prop}
    {d : DirectSelections} (h : d.Tidy (TypeInfo.TypedIn s) known) {f : EntityField}
    (mem : .entity f ∈ d.fields) :
    f.selectionSet.typeInfo.parentType = f.selectionSet.typeInfo.rootType := by
  obtain ⟨p, c, -, -, root⟩ := (h.entity mem).1
  rw [TypeInfo.parentType, root]
  rfl

end DirectSelections

/-- An inline fragment is entered under the conditions of the scope it opens, and selects on its
type. -/
theorem InlineSpread.Opens.reads {s : InlineSpread} {scope : Scope} {deferral : Deferral}
    (h : s.Opens scope deferral) :
    s.typeInfo.conditions.all (Conjunction.holds σ) = scope.holds σ
      ∧ s.typeInfo.parentType = scope.typeCondition := by
  obtain ⟨last, -⟩ := h
  cases held : s.typeInfo.scopePath.last? with
  | none =>
      rw [held] at last
      cases last
  | some own =>
      rw [held, Option.some_beq_some] at last
      have type := (Scope.beq_iff.mp last).1
      constructor
      · rw [← Scope.holds_congr σ last, TypeInfo.conditions, held]
        rfl
      · rw [← type, TypeInfo.parentType, ScopePath.typeOn, held]
        rfl

section Reading

variable {built : List NamedFragment}

/-- The paths that a built set selects can be followed in the document. -/
theorem BuiltSelections.Selects.followed (library : Library view document built)
    {b : BuiltSelections} {set : SelectionSet} {entered : List Name} {path : List Step}
    (h : b.Selects σ set entered path) {type : Name} {ss : List Selection} {address : List Turn}
    (faithful : b.Faithful view document type ss) (refers : b.Refers built)
    (located : Located b address set) :
    Followed view document σ type ss address set.typeInfo.parentType entered path := by
  induction h generalizing type ss address with
  | @key b set entered f mem included =>
      refine .key ((faithful.includes σ _).mp ((located.reads σ [.field f.responseKey f.typeBelow]
        (by simp)).mpr ?_))
      exact ⟨f, mem, rfl, rfl, Or.inl ⟨rfl, included⟩⟩
  | @field b set entered f path mem included _ ih =>
      have next := ih faithful refers (located.field mem)
      rw [located.tidy.parentType_field mem] at next
      refine .field ((faithful.includes σ _).mp ((located.reads σ _ (by simp)).mpr ?_)) next
      exact ⟨.entity f, mem, rfl, rfl, Or.inl ⟨rfl, included⟩⟩
  | @scope b set entered s path mem included _ ih =>
      -- The turn into the inline fragment is the last scope of its own place.
      obtain ⟨scope, last⟩ := Option.isSome_iff_exists.mp (located.tidy.inline mem).1
      have opens : s.Opens scope s.deferral := ⟨by rw [last]; exact BEq.rfl, rfl⟩
      obtain ⟨conditions, parentType⟩ := opens.reads (σ := σ)
      have next := ih faithful refers (located.scope mem opens)
      rw [show s.selectionSet.typeInfo.parentType = _ from parentType, parentType] at next
      refine .scope ((faithful.includes σ _).mp ((located.reads σ _ (by simp)).mpr ?_)) next
      exact ⟨s, mem, opens, Or.inl ⟨rfl, conditions ▸ included⟩⟩
  | @spread b set entered s f path mem included used same _ ih =>
      -- Reading goes on at the root of the fragment, where addresses start anew.
      obtain ⟨memF, -⟩ := NamedFragment.mem_of_find? (refers f used)
      obtain ⟨d, defined, definition⟩ := (library.inlined f memF).defined
      have inner := library.faithful f memF
      have next := ih inner (library.closed f memF) (.root inner)
      rw [inner.parentType, ← definition] at next
      have name : f.name = s.fragment.name := congrArg FragmentHandle.name same
      have stands : StandsAll view document σ type
          (address ++ [.spread s.fragment.name s.deferral]) ss := by
        refine (faithful.includes σ _).mp ((located.reads σ _ (by simp)).mpr ?_)
        exact ⟨s, mem, rfl, rfl, included⟩
      exact .spread stands (name ▸ defined) next

/-- The paths that can be followed in the document are selected by what was built. -/
theorem Followed.selects (library : Library view document built) {type current : Name}
    {ss : List Selection} {address : List Turn} {entered : List Name} {path : List Step}
    (h : Followed view document σ type ss address current entered path) {b : BuiltSelections}
    {set : SelectionSet} (faithful : b.Faithful view document type ss) (refers : b.Refers built)
    (located : Located b address set) (typed : set.typeInfo.parentType = current) :
    b.Selects σ set entered path := by
  induction h generalizing b set with
  | @key type current ss address entered key below stands =>
      obtain ⟨f, mem, rfl, -, ⟨-, included⟩ | ⟨e, -, ⟨⟩⟩⟩ :=
        (located.reads σ _ (by simp)).mp ((faithful.includes σ _).mpr stands)
      exact .key mem included
  | @field type current inner ss address entered key path stands _ ih =>
      obtain ⟨f, mem, rfl, same, ⟨-, included⟩ | ⟨e, -, ⟨⟩⟩⟩ :=
        (located.reads σ _ (by simp)).mp ((faithful.includes σ _).mpr stands)
      -- The turn says that the field selects on a type, so it is composite.
      cases f with
      | scalar f => cases same
      | entity f =>
          cases same
          exact .field mem included
            (ih faithful refers (located.field mem) (located.tidy.parentType_field mem))
  | @scope type current ss address entered scope deferral path stands _ ih =>
      obtain ⟨s, mem, opens, ⟨-, included⟩ | never⟩ :=
        (located.reads σ _ (by simp)).mp ((faithful.includes σ _).mpr stands)
      swap
      · exact never.elim
      obtain ⟨conditions, parentType⟩ := opens.reads (σ := σ)
      refine .scope mem (conditions.trans included) ?_
      rw [typed, parentType]
      exact ih faithful refers (located.scope mem opens) parentType
  | @spread type current ss address entered name deferral f path stands defined _ ih =>
      obtain ⟨s, mem, key, -, included⟩ :=
        (located.reads σ _ (by simp)).mp ((faithful.includes σ _).mpr stands)
      have ⟨_, _, _, _, _, _, _, spreadsKnown⟩ := located.tidy
      obtain ⟨g, used, same⟩ := spreadsKnown s mem
      obtain ⟨memG, -⟩ := NamedFragment.mem_of_find? (refers g used)
      obtain ⟨d, defined', definition⟩ := (library.inlined g memG).defined
      have inner := library.faithful g memG
      have named : g.name = name := by
        rw [show g.name = s.fragment.name from congrArg FragmentHandle.name same]
        exact congrArg Prod.fst key
      rw [named, defined] at defined'
      cases defined'
      rw [← definition] at inner
      refine .spread mem included used same ?_
      rw [inner.parentType, typed]
      exact ih inner (library.closed g memG) (.root inner) inner.parentType

end Reading

/-- What a session builds includes what its selections stand at, and so do the fragments that it
refers to. -/
theorem Session.Builds.faithful {s : Session} (reachable : s.Reachable document)
    {definition : ExecutableDefinition} {b : BuiltSelections} (h : s.Builds definition b) :
    ∃ built, Library s.view document built ∧ b.Refers built
      ∧ b.Faithful s.view document definition.rootType definition.selections := by
  obtain ⟨built, id, rootName, library, walked⟩ := h.walked reachable
  have faithful := walked.faithful library.inlined library.closed
  exact ⟨built, library, faithful.2, faithful.1⟩

/-! ## What is selected -/

/-- A query for a hero's name under one condition and for a friend's under another.  The two fields
are built as one. -/
def Heroes.twoHeroes : Sourced OperationDefinition :=
  query [.field (heroField "hero" [includedIf "a"] [.field nameField]),
    .field (heroField "hero" [includedIf "b"] [.field (heroField "friend" [] [.field nameField])])]

/-- A path that the document selects under given values is selected by what a session builds. -/
theorem no_selection_is_lost {s : Session} (reachable : s.Reachable document)
    {definition : ExecutableDefinition} {b : BuiltSelections} (built : s.Builds definition b)
    {path : List Step}
    (selected : Selects s.view document σ definition.rootType [] definition.selections path) :
    b.Selects σ b.rootField.selectionSet [] path := by
  obtain ⟨fragments, library, refers, faithful⟩ := built.faithful reachable
  have followed : Followed s.view document σ _ _ [] _ [] path := selected.followed fun _ => id
  exact followed.selects library faithful refers (.root faithful) faithful.parentType

/-- The name of a hero who is asked for is there. -/
theorem heros_name_is_kept :
    let document : Document := ⟨[Heroes.twoHeroes], []⟩
    ∃ (s : Session) (b : BuiltSelections), s.Reachable document
      ∧ s.Builds (.operation Heroes.twoHeroes.definition) b
      ∧ b.Selects (· == "a") b.rootField.selectionSet [] [⟨[], "hero"⟩, ⟨[], "name"⟩] := by
  intro document
  obtain ⟨s, b, reachable, schema, builds, -⟩ := Session.exists_builds document Heroes.schema
    Heroes.twoHeroes (fun _ => true) (by decide +kernel)
  refine ⟨s, b, reachable, builds, no_selection_is_lost reachable builds ?_⟩
  refine .field (List.mem_cons_self ..) rfl (Heroes.isComposite_hero schema) ?_
  exact .key (List.mem_singleton_self _) rfl

/-- What a session builds selects a path under given values exactly when the path can be followed in
the document. -/
theorem selects_iff_followed {s : Session} (reachable : s.Reachable document)
    {definition : ExecutableDefinition} {b : BuiltSelections} (built : s.Builds definition b)
    (σ : Assignment) (path : List Step) :
    b.Selects σ b.rootField.selectionSet [] path
      ↔ Followed s.view document σ definition.rootType definition.selections []
        definition.rootType [] path := by
  obtain ⟨fragments, library, refers, faithful⟩ := built.faithful reachable
  constructor
  · intro selected
    have followed := selected.followed library faithful refers (.root faithful)
    rwa [faithful.parentType] at followed
  · intro followed
    exact followed.selects library faithful refers (.root faithful) faithful.parentType

/-- Where only the friend is asked for, the hero stands there by one field and the name by the
other. -/
theorem heros_name_is_followed :
    let document : Document := ⟨[Heroes.twoHeroes], []⟩
    ∃ (s : Session) (b : BuiltSelections), s.Reachable document
      ∧ s.Builds (.operation Heroes.twoHeroes.definition) b
      ∧ b.Selects (· == "b") b.rootField.selectionSet [] [⟨[], "hero"⟩, ⟨[], "name"⟩] := by
  intro document
  obtain ⟨s, b, reachable, schema, builds, -⟩ := Session.exists_builds document Heroes.schema
    Heroes.twoHeroes (fun _ => true) (by decide +kernel)
  have hero : s.view.typeBelow (.named "Hero") = some "Hero" :=
    SchemaView.typeBelow_eq (Heroes.isComposite_hero schema)
  have name : s.view.typeBelow (.named "String") = none := by
    rw [SchemaView.typeBelow, show s.view.isComposite (TypeRef.named "String").innerName = _ from
      Heroes.isComposite_string schema]
  have heroStands : StandsAll s.view document (· == "b") "Query" [.field "hero" (some "Hero")]
      Heroes.twoHeroes.definition.selections := by
    refine standsAll_of_mem (List.mem_cons_of_mem _ (List.mem_singleton_self _)) ?_
    exact stands_field.mpr ⟨⟨_, rfl⟩, [], congrArg (fun type => [Turn.field "hero" type]) hero.symm,
      Or.inl ⟨rfl, rfl⟩⟩
  have nameStands : StandsAll s.view document (· == "b") "Query"
      [.field "hero" (some "Hero"), .field "name" none] Heroes.twoHeroes.definition.selections := by
    refine standsAll_of_mem (List.mem_cons_self ..) (stands_field.mpr ⟨⟨_, rfl⟩, _,
      congrArg (fun type => [Turn.field "hero" type, .field "name" none]) hero.symm,
      Or.inr ⟨"Hero", hero, standsAll_of_mem (List.mem_singleton_self _) ?_⟩⟩)
    exact stands_field.mpr ⟨⟨_, rfl⟩, [], congrArg (fun type => [Turn.field "name" type]) name.symm,
      Or.inl ⟨rfl, rfl⟩⟩
  refine ⟨s, b, reachable, builds, (selects_iff_followed reachable builds _ _).mpr ?_⟩
  exact .field heroStands (.key nameStands)

namespace Heroes

/-- Where only the friend is asked for, the document does not select the hero's name. -/
theorem twoHeroes_not_selects (view : SchemaView) (document : Document) :
    ¬ Selects view document (· == "b") "Query" [] twoHeroes.definition.selections
      [⟨[], "hero"⟩, ⟨[], "name"⟩] := by
  intro h
  obtain ⟨f, mem, -, allowed, none | below⟩ := h.through_field (by
    rintro s mem -
    rcases List.mem_pair.mp mem with rfl | rfl <;> exact ⟨_, rfl⟩)
  · cases none
  · rcases List.mem_pair.mp mem with ⟨⟨⟩⟩ | ⟨⟨⟩⟩
    · cases allowed
    · obtain ⟨g, mem, key, -⟩ := below.through_field (by
        rintro s mem -
        exact ⟨_, List.mem_singleton.mp mem⟩)
      cases List.mem_singleton.mp mem
      exact absurd key (by decide)

/-- What was built selects the hero's name all the same: the hero is there for its friend. -/
theorem merging_shares_conditions :
    let document : Document := ⟨[twoHeroes], []⟩
    ∃ (s : Session) (b : BuiltSelections) (σ : Assignment) (path : List Step),
      s.Reachable document ∧ s.Builds (.operation twoHeroes.definition) b
      ∧ b.Selects σ b.rootField.selectionSet [] path
      ∧ ¬ Selects s.view document σ "Query" [] twoHeroes.definition.selections path := by
  intro document
  obtain ⟨s, b, reachable, -, builds, selects⟩ := Session.exists_builds document schema twoHeroes
    (fun b => b.rootField.selectionSet.direct.fields.any fun f =>
      f.responseKey == "hero" && f.inclusion.holds (· == "b") && f.entity?.any fun e =>
        e.selectionSet.direct.fields.any fun g =>
          g.responseKey == "name" && g.inclusion.holds (· == "b"))
    (by decide +kernel)
  refine ⟨s, b, (· == "b"), [⟨[], "hero"⟩, ⟨[], "name"⟩], reachable, builds, ?_,
    twoHeroes_not_selects s.view document⟩
  simp only [List.any_eq_true, Bool.and_eq_true, beq_iff_eq, Option.any_eq_true] at selects
  obtain ⟨f, mem, ⟨hero, included⟩, e, entity, g, memG, name, includedG⟩ := selects
  obtain rfl : f = .entity e := by
    cases f with
    | scalar f => cases entity
    | entity f => exact congrArg Field.entity (Option.some.inj entity)
  have last : b.Selects (· == "b") e.selectionSet [] [⟨[], g.responseKey⟩] := .key memG includedG
  have path : b.Selects (· == "b") b.rootField.selectionSet [] [⟨[], e.responseKey⟩, _] :=
    .field mem included last
  rwa [name, show e.responseKey = "hero" from hero] at path

end Heroes

end SelectionGraph
