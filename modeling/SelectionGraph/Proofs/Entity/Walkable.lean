import Mathlib.Data.List.Induction
import SelectionGraph.Proofs.Entity.Inlining

/-!
# Walkable — walking response keys through the entities

The trees of a storage can be walked by response keys, from the root entity on.  A walk sees the
conditions that each entity's own tree records; what guards the way to an entity is not recorded
below it.

* `EntityStorage.Offers`, `EntityStorage.Walkable` — one step of such a walk, and a whole one;
* `Included`                — the walk of a definition meets a field whose conditions all hold, from
  its entity on;
* `SelectsKeys`             — the document selects response keys;
* `Selects.included`        — each key of a selected path is included on its entity;
* `walkable_selects_iff`    — a storage can be walked only where the document selects, exactly if what
  is included on a selected entity is selected there.

The last condition fails when an entity that is spread under a condition is also selected without it.
-/

namespace SelectionGraph

variable {view : SchemaView} {document : Document} {σ : Assignment}

/-! ## One step -/

/-- The response keys of a path. -/
def FieldPath.keys (path : FieldPath) : List Name :=
  path.components.map PathComponent.name

/-- Whether the conditions of all scopes of a path hold. -/
def ScopePath.holds (σ : Assignment) (path : ScopePath) : Bool :=
  path.scopes.all (Scope.holds σ)

theorem ScopePath.holds_congr {p q : ScopePath} (h : (p == q) = true) : p.holds σ = q.holds σ := by
  have same : (p.scopes == q.scopes) = true := h
  unfold holds
  generalize p.scopes = ss at same
  generalize q.scopes = ts at same
  induction ss generalizing ts with
  | nil =>
      cases ts with
      | nil => rfl
      | cons t ts => cases same
  | cons s ss ih =>
      cases ts with
      | nil => cases same
      | cons t ts =>
          obtain ⟨first, rest⟩ := (Bool.and_eq_true _ _).mp same
          rw [List.all_cons, List.all_cons, Scope.holds_congr σ first, ih ts rest]

theorem ScopePath.holds_append (path : ScopePath) (scope : Scope) :
    (path.append scope).holds σ = (path.holds σ && scope.holds σ) := by
  simp [holds, append]

namespace EntityStorage

/-- At the end of response keys there is an entity that has a field of the next key in some scope,
where the conditions of the scope and those of the field hold. -/
def Offers (σ : Assignment) (s : EntityStorage) (keys : List Name) (key : Name) : Prop :=
  ∃ e ∈ s.entities, e.location.path.keys = keys
    ∧ ∃ scope f, e.tree.field? scope key = some f ∧ scope.holds σ = true
      ∧ f.inclusion.holds σ = true

/-- Response keys can be walked from the root, key by key. -/
def Walkable (σ : Assignment) (s : EntityStorage) (keys : List Name) : Prop :=
  ∀ earlier key, earlier ++ [key] <+: keys → s.Offers σ earlier key

theorem walkable_nil (s : EntityStorage) : s.Walkable σ [] := by
  intro earlier key before
  simp at before

theorem walkable_snoc {s : EntityStorage} {keys : List Name} {key : Name} :
    s.Walkable σ (keys ++ [key]) ↔ s.Walkable σ keys ∧ s.Offers σ keys key := by
  simp only [Walkable, List.prefix_concat_iff]
  constructor
  · intro walkable
    exact ⟨fun earlier next before => walkable earlier next (Or.inr before),
      walkable keys key (Or.inl rfl)⟩
  · rintro ⟨walkable, last⟩ earlier next (whole | before)
    · obtain ⟨rfl, ⟨⟩⟩ := List.append_inj' whole rfl
      exact last
    · exact walkable earlier next before

end EntityStorage

/-- Whether the conditions hold that apply at a place, those before its entity apart. -/
def Place.Open (σ : Assignment) (p : Place) : Prop :=
  p.scope.holds σ = true ∧ ∀ g ∈ p.guards, g.holds σ = true

/-- Among what is met is a field of a key on an entity, where all conditions hold from the entity
on. -/
def Included (met : Place → Selection → Inclusion → Prop) (σ : Assignment) (keys : List Name)
    (key : Name) : Prop :=
  ∃ q f c, met q (.field f) c ∧ q.entity.keys = keys ∧ f.responseKey = key ∧ q.Open σ
    ∧ c.holds σ = true

/-- What an entity offers is what is included on it. -/
theorem EntityStorage.Inlines.offers_iff {type : Name} {ss : List Selection} {s : EntityStorage}
    (h : s.Inlines view document type ss) {keys : List Name} {key : Name} :
    s.Offers σ keys key ↔ Included (Meets view document (.root type) ss) σ keys key := by
  constructor
  · rintro ⟨e, mem, rfl, scope, f, found, scopeHolds, holds⟩
    obtain ⟨q, t, c, met, slotted, at_, same, own, guards⟩ := (h.field?_iff mem).mp ⟨f, found, holds⟩
    have opened : q.scope.holds σ = true := (ScopePath.holds_congr same).trans scopeHolds
    cases t with
    | field g =>
        cases slotted
        exact ⟨q, g, c, met, congrArg FieldPath.keys at_, rfl, ⟨opened, guards⟩, own⟩
    | inlineFragment => cases slotted
    | fragmentSpread => cases slotted
  · rintro ⟨q, g, c, met, rfl, rfl, ⟨opened, guards⟩, own⟩
    have occurs : Occurs (Meets view document (.root type) ss) σ q.entity q.scope
        (.field g.responseKey) := ⟨q, .field g, c, met, rfl, rfl, BEq.rfl, own, guards⟩
    -- The entity comes first, then the field in its tree.
    obtain ⟨e, mem, at_, -⟩ := (h.holds σ q.entity q.scope _).mpr occurs
    rw [← at_] at occurs
    obtain ⟨f, found, holds⟩ := (h.field?_iff mem).mpr occurs
    exact ⟨e, mem, congrArg FieldPath.keys at_, q.scope, f, found, opened, holds⟩

/-! ## What is selected is included -/

namespace Place

variable {p : Place}

theorem keys_below (p : Place) (f : FieldSelection) :
    (p.below f).entity.keys = p.entity.keys ++ [f.responseKey] := by
  simp [below, FieldPath.keys, FieldPath.append]

theorem open_below (p : Place) (f : FieldSelection) : (p.below f).Open σ :=
  ⟨rfl, by simp [below]⟩

theorem Open.enter (h : p.Open σ) {condition : Option Name} {conditions : Option Conjunction}
    {deferral : Deferral} (holds : Scope.holds σ ⟨condition.getD p.type, conditions⟩ = true) :
    (p.enter condition conditions deferral).Open σ := by
  unfold Place.enter
  dsimp only
  split
  · exact h
  · refine ⟨?_, h.2⟩
    rw [ScopePath.holds_append, h.1, holds]
    rfl

theorem Open.follow (h : p.Open σ) (typeCondition : Name) {guard : Inclusion}
    (holds : guard.holds σ = true) : (p.follow typeCondition guard).Open σ := by
  refine ⟨?_, List.forall_mem_cons.mpr ⟨holds, h.2⟩⟩
  unfold Place.follow
  dsimp only
  split
  · exact h.1
  · rw [ScopePath.holds_append, h.1]
    rfl

theorem entity_enter (p : Place) (condition : Option Name) (conditions : Option Conjunction)
    (deferral : Deferral) : (p.enter condition conditions deferral).entity = p.entity := by
  unfold enter
  dsimp only
  split <;> rfl

theorem type_enter (p : Place) (condition : Option Name) (conditions : Option Conjunction)
    (deferral : Deferral) :
    (p.enter condition conditions deferral).type = condition.getD p.type := by
  unfold enter
  dsimp only
  split
  · rename_i flat
    simp only [Bool.and_eq_true, beq_iff_eq] at flat
    exact flat.1.1.symm
  · rfl

end Place

/-- Each key of a path that the document selects is included on the entity that the keys before it
lead to.  The induction carries the place of the selections. -/
theorem Selects.included {type : Name} {entered : List Name} {ss : List Selection}
    {path : List Step} (h : Selects view document σ type entered ss path) :
    ∀ {p : Place}, p.type = type → p.Open σ → ∀ {earlier later : List Name} {key : Name},
      path.map Step.key = earlier ++ key :: later →
      Included (Meets view document p ss) σ (p.entity.keys ++ earlier) key := by
  induction h with
  | @key type entered ss f mem allowed =>
      intro p _ opened earlier later key whole
      obtain ⟨own, read, holds⟩ := Inclusion.of_allow allowed
      obtain ⟨rfl, last⟩ | ⟨rest, rfl, never⟩ := List.cons_eq_append_iff.mp whole
      · cases last
        exact ⟨p, f, own, .here mem rfl read, (List.append_nil _).symm, rfl, opened, holds⟩
      · simp at never
  | @field type entered ss f path mem allowed isComposite _ ih =>
      intro p _ opened earlier later key whole
      obtain ⟨own, read, holds⟩ := Inclusion.of_allow allowed
      obtain ⟨rfl, last⟩ | ⟨rest, rfl, further⟩ := List.cons_eq_append_iff.mp whole
      · cases last
        exact ⟨p, f, own, .here mem rfl read, (List.append_nil _).symm, rfl, opened, holds⟩
      · obtain ⟨q, g, c, met, at_, found⟩ := ih (p := p.below f) rfl (p.open_below f) further
        rw [Place.keys_below, List.append_assoc] at at_
        exact ⟨q, g, c, .field mem read isComposite met, at_, found⟩
  | @inline type entered ss selections condition directives path mem allowed _ ih =>
      rintro p rfl opened earlier later key whole
      obtain ⟨verdict, conditions, read, scope, holds⟩ := Verdict.of_allow allowed
      have inside : (p.enter condition conditions (.said directives)).Open σ := opened.enter holds
      obtain ⟨q, g, c, met, at_, found⟩ := ih (p.type_enter ..) inside whole
      rw [Place.entity_enter] at at_
      exact ⟨q, g, c, .inline mem read scope met, at_, found⟩
  | @spread type entered ss name directives f path mem allowed defined _ ih =>
      rintro p - opened earlier later key whole
      obtain ⟨own, read, holds⟩ := Inclusion.of_allow allowed
      obtain ⟨q, g, c, met, at_, found⟩ :=
        ih rfl (opened.follow f.definition.typeCondition holds) whole
      exact ⟨q, g, c, .spread mem read defined met, at_, found⟩

/-- The document selects response keys, whatever type conditions are entered between them.  There
is nothing to select for no keys. -/
def SelectsKeys (view : SchemaView) (document : Document) (σ : Assignment) (type : Name)
    (ss : List Selection) (keys : List Name) : Prop :=
  keys = [] ∨ ∃ path, path.map Step.key = keys ∧ Selects view document σ type [] ss path

/-- What the document selects can be walked. -/
theorem EntityStorage.Inlines.walkable {type : Name} {ss : List Selection} {s : EntityStorage}
    (h : s.Inlines view document type ss) {keys : List Name}
    (selected : SelectsKeys view document σ type ss keys) : s.Walkable σ keys := by
  rcases selected with rfl | ⟨path, rfl, selected⟩
  · exact s.walkable_nil
  · rintro earlier key ⟨later, whole⟩
    rw [List.append_assoc] at whole
    have atRoot : (Place.root type).Open σ := ⟨rfl, by simp [Place.root]⟩
    exact h.offers_iff.mpr (selected.included rfl atRoot whole.symm)

/-! ## Walking beyond what is selected -/

/-- The entities of whatever a session builds offer a key exactly when the walk of the definition
includes it there.  They can be walked only where the document selects exactly if whatever is
included on an entity that the document selects is selected there, so that no condition on the way
to the entity is needed for it. -/
theorem walkable_selects_iff {s : Session} (reachable : s.Reachable document)
    {definition : ExecutableDefinition} {b : BuiltSelections} (built : s.Builds definition b)
    (σ : Assignment) :
    let met := Meets s.view document (.root definition.rootType) definition.selections
    let selects := SelectsKeys s.view document σ definition.rootType definition.selections
    (∀ keys key, b.entities.Offers σ keys key ↔ Included met σ keys key)
      ∧ ((∀ keys, b.entities.Walkable σ keys → selects keys)
        ↔ ∀ keys key, selects keys → Included met σ keys key → selects (keys ++ [key])) := by
  intro met selects
  have inlines := built.inlines reachable
  refine ⟨fun keys key => inlines.offers_iff, ?_, ?_⟩
  · -- Only the last step of the longer walk is not known from what is selected.
    intro law keys key selected included
    refine law _ (EntityStorage.walkable_snoc.mpr ⟨inlines.walkable selected, ?_⟩)
    exact inlines.offers_iff.mpr included
  · -- Walks are followed from the root on, with what is selected so far as the hypothesis.
    intro guarded keys
    induction keys using List.reverseRecOn with
    | nil => exact fun _ => Or.inl rfl
    | append_singleton keys key ih =>
        intro walkable
        obtain ⟨before, last⟩ := EntityStorage.walkable_snoc.mp walkable
        exact guarded keys key (ih before) (inlines.offers_iff.mp last)

namespace Heroes

/-- The friend of a hero with their name. -/
def namedFriend : FieldSelection :=
  heroField "friend" [] [.field nameField]

/-- A fragment with the name of a hero's friend. -/
def friendly : Sourced FragmentDefinition :=
  ⟨⟨"Friendly", "Hero", [], [.field namedFriend]⟩, none⟩

/-- A hero with a friend of their friend, and the fragment under a condition. -/
def heroOfFriends : FieldSelection :=
  heroField "hero" [] [.field (heroField "friend" [] [.field namedFriend]),
    .fragmentSpread "Friendly" [includedIf "a"]]

/-- A query for the hero. -/
def friendOfFriend : Sourced OperationDefinition :=
  query [.field heroOfFriends]

/-- Where the fragment is not included, the document does not select the friend's name. -/
theorem friendOfFriend_not_selects (view : SchemaView) (document : Document) :
    ¬ SelectsKeys view document (fun _ => false) "Query" friendOfFriend.definition.selections
      ["hero", "friend", "name"] := by
  rintro (none | ⟨path, keys, h⟩)
  · cases none
  obtain ⟨first, _, rfl, -, keys⟩ := List.map_eq_cons_iff.mp keys
  obtain ⟨second, _, rfl, -, keys⟩ := List.map_eq_cons_iff.mp keys
  obtain ⟨third, _, rfl, name, keys⟩ := List.map_eq_cons_iff.mp keys
  obtain ⟨f, mem, -, -, none | below⟩ := h.through_field (by
    rintro s mem -
    exact ⟨_, List.mem_singleton.mp mem⟩)
  · cases none
  cases List.mem_singleton.mp mem
  obtain ⟨g, mem, -, -, none | below⟩ := below.through_field (by
    rintro s mem allowed
    rcases List.mem_pair.mp mem with rfl | rfl
    · exact ⟨_, rfl⟩
    · cases allowed)
  · cases none
  rcases List.mem_pair.mp mem with ⟨⟨⟩⟩ | ⟨⟨⟩⟩
  obtain ⟨g, mem, key, -⟩ := below.through_field (by
    rintro s mem -
    exact ⟨_, List.mem_singleton.mp mem⟩)
  cases List.mem_singleton.mp mem
  exact absurd (key.trans name) (by decide)

end Heroes

/-- The friend's name, which is spread under a condition, can be walked to without it: the friend is
there for a friend of its own. -/
theorem friends_name_is_unguarded :
    let document : Document := ⟨[Heroes.friendOfFriend], [Heroes.friendly]⟩
    ∃ (s : Session) (b : BuiltSelections), s.Reachable document
      ∧ s.Builds (.operation Heroes.friendOfFriend.definition) b
      ∧ ¬ ∀ keys, b.entities.Walkable (fun _ => false) keys →
        SelectsKeys s.view document (fun _ => false) "Query"
          Heroes.friendOfFriend.definition.selections keys := by
  intro document
  obtain ⟨s, b, reachable, schema, builds, -⟩ := Session.exists_builds document Heroes.schema
    Heroes.friendOfFriend (fun _ => true) (by decide +kernel)
  have isComposite := Heroes.isComposite_hero schema
  refine ⟨s, b, reachable, builds, fun law => ?_⟩
  have guarded := (walkable_selects_iff reachable builds fun _ => false).2.mp law
  refine Heroes.friendOfFriend_not_selects _ _ (guarded ["hero", "friend"] "name" ?_ ?_)
  · refine Or.inr ⟨[⟨[], "hero"⟩, ⟨[], "friend"⟩], rfl, ?_⟩
    refine .field (List.mem_singleton_self _) rfl isComposite ?_
    exact .key (List.mem_cons_self ..) rfl
  · obtain ⟨guard, read⟩ : ∃ guard,
      Inclusion.ofDirectives [Heroes.includedIf "a"] = .ok (some guard) := ⟨_, rfl⟩
    have met : Meets s.view document (.root "Query") Heroes.friendOfFriend.definition.selections
        ((((Place.root "Query").below Heroes.heroOfFriends).follow "Hero" guard).below
          Heroes.namedFriend) (.field Heroes.nameField) .always := by
      refine .field (List.mem_singleton_self _) rfl isComposite ?_
      refine .spread (List.mem_cons_of_mem _ (List.mem_singleton_self _)) read rfl ?_
      refine .field (List.mem_singleton_self _) rfl isComposite ?_
      exact .here (List.mem_singleton_self _) rfl rfl
    exact ⟨_, Heroes.nameField, .always, met, rfl, rfl, Place.open_below _ _, rfl⟩

end SelectionGraph
