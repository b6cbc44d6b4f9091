import SelectionGraph.Proofs.Entity.Sources

/-!
# Reached — which entities their parents select

Every entity but the root is reached by a field that the walk of the definition meets.  The tree of
the parent has that field only as far as it can be included: a guard that contradicts the conditions
of the field drops it, while its entity stays.

* `FieldsAgree`                      — fields that meet under one key have one name and one type;
* `FieldsAgree.recorded`             — then a tree has the name and type of each field that meets;
* `parents_select_what_can_be_included` — a parent selects an entity exactly if some field that
  reaches it can be included.
-/

namespace SelectionGraph

variable {view : SchemaView} {document : Document}

/-- Fields that are met on one entity, in one scope and under one response key have the same name and
the same type. -/
def FieldsAgree (met : Place → Selection → Inclusion → Prop) : Prop :=
  ∀ q f c q' f' c', met q (.field f) c → met q' (.field f') c' → q.entity = q'.entity →
    (q.scope == q'.scope) = true → f.responseKey = f'.responseKey →
    f.name = f'.name ∧ f.type = f'.type

/-- What is recorded where an agreeing field is met has its name and type. -/
theorem FieldsAgree.recorded {met : Place → Selection → Inclusion → Prop} (agree : FieldsAgree met)
    {s : EntityStorage} (sourced : s.Sourced met) {q : Place} {f : FieldSelection} {c : Inclusion}
    (h : met q (.field f) c) {scope : ScopePath} (at_ : (q.scope == scope) = true) {name : Name}
    {type : TypeRef} (recorded : s.Records q.entity scope f.responseKey name type) :
    name = f.name ∧ type = f.type := by
  obtain ⟨q', f', c', met', entity, same, key, rfl, rfl⟩ := sourced _ _ _ _ _ recorded
  exact agree _ _ _ _ _ _ met' h entity (BEq.trans same (BEq.symm at_)) key

/-- The fields of a tree are recorded on its entity. -/
theorem EntityStorage.records_of_field? {s : EntityStorage} {e : Entity} (mem : e ∈ s.entities)
    {scope : ScopePath} {key : Name} {g : MergedField} (found : e.tree.field? scope key = some g) :
    s.Records e.location.path scope key g.name g.type :=
  ⟨e, mem, rfl, SelectionTree.records_of_field? found⟩

/-- A field that a tree has is met there, under conditions that can hold together. -/
theorem EntityStorage.Inlines.met_of_field? {type : Name} {ss : List Selection} {s : EntityStorage}
    (inlines : s.Inlines view document type ss) {e : Entity} (mem : e ∈ s.entities)
    {scope : ScopePath} {key : Name} {g : MergedField} (found : e.tree.field? scope key = some g) :
    ∃ q f own, Meets view document (.root type) ss q (.field f) own ∧ q.entity = e.location.path
      ∧ (q.scope == scope) = true ∧ f.responseKey = key
      ∧ ∃ σ, own.holds σ = true ∧ ∀ guard ∈ q.guards, guard.holds σ = true := by
  obtain ⟨σ, holds⟩ := Inclusion.exists_holds g.inclusion
  obtain ⟨q, t, own, met, slot, entity, same, included, guards⟩ :=
    (inlines.field?_iff mem).mp ⟨g, found, holds⟩
  cases t with
  | field f => exact ⟨q, f, own, met, entity, same, Slot.field.inj (Option.some.inj slot), σ, included,
      guards⟩
  | inlineFragment => cases slot
  | fragmentSpread => cases slot

/-- An entity that is no root is reached by a field.  Its parent is there, and the parent's tree
selects it, by its response key and type, exactly if a field that reaches it can be included: if the
conditions of the field and of the spreads that it is met through since the parent hold together for
some values of the variables. -/
theorem parents_select_what_can_be_included (document : Document) (s : Session)
    (reachable : s.Reachable document) (d : ExecutableDefinition) (b : BuiltSelections)
    (builds : s.Builds d b)
    (agree : FieldsAgree (Meets s.view document (.root d.rootType) d.selections))
    (p : FieldPath) (c : PathComponent) (held : b.entities.Has (p.append c)) :
    let met := Meets s.view document (.root d.rootType) d.selections
    (∃ q f own, met q (.field f) own ∧ (q.below f).entity = p.append c)
      ∧ ∃ e ∈ b.entities.entities, e.location.path = p
        ∧ ((∃ scope g, e.tree.field? scope c.name = some g ∧ g.type = c.type)
          ↔ ∃ q f own, met q (.field f) own ∧ (q.below f).entity = p.append c
            ∧ ∃ σ, own.holds σ = true ∧ ∀ guard ∈ q.guards, guard.holds σ = true) := by
  intro met
  have inlines := builds.inlines reachable
  have sourced := builds.sourced reachable
  obtain ⟨q₀, f₀, own₀, met₀, isComposite, reached⟩ :=
    ((inlines.has _).mp held).resolve_left FieldPath.root_append_ne
  obtain ⟨e, mem, rfl⟩ := inlines.wellFormed.has_parent held
  refine ⟨⟨q₀, f₀, own₀, met₀, reached.symm⟩, e, mem, rfl, ?_, ?_⟩
  · -- What the tree has can be included, so that it is met under some values.
    rintro ⟨scope, g, found, typed⟩
    obtain ⟨q, f, own, hmet, entity, same, key, included⟩ := inlines.met_of_field? mem found
    have recorded := EntityStorage.records_of_field? mem found
    rw [← key, ← entity] at recorded
    obtain ⟨-, type⟩ := agree.recorded sourced hmet same recorded
    refine ⟨q, f, own, hmet, ?_, included⟩
    rw [Place.below, entity, key, ← type, typed]
  · -- A field that can be included is in the tree, with the type of whatever is recorded there.
    rintro ⟨q, f, own, hmet, below, σ, included, guards⟩
    obtain ⟨entity, component⟩ := FieldPath.append_inj below
    obtain ⟨g, found, -⟩ : ∃ g, e.tree.field? q.scope f.responseKey = some g
        ∧ g.inclusion.holds σ = true :=
      (inlines.field?_iff mem).mpr ⟨q, .field f, own, hmet, rfl, entity, BEq.rfl, included, guards⟩
    have recorded := EntityStorage.records_of_field? mem found
    rw [← entity] at recorded
    obtain ⟨-, type⟩ := agree.recorded sourced hmet BEq.rfl recorded
    rw [← component]
    exact ⟨q.scope, g, found, type⟩

-- Where the conditions contradict each other, the friend of `query { hero { ...Friendly @skip(if: $a) } }`
-- is an entity and no field of the hero.
example :
    let friend := Heroes.heroField "friend" [Heroes.includedIf "a"] [.field Heroes.nameField]
    let hero := Heroes.heroField "hero" []
      [.fragmentSpread "Friendly" [⟨"skip", [⟨"if", .var "a"⟩]⟩]]
    let o := Heroes.query [.field hero]
    let document : Document := ⟨[o], [⟨⟨"Friendly", "Hero", [], [.field friend]⟩, none⟩]⟩
    ((Session.start Heroes.schema document 0).toOption.any fun s =>
      (s.buildOperation o).1.toOption.any fun b =>
        (b.built.entities.get? ⟨2⟩).any (·.location.path.render == "hero.friend")
          && (b.built.entities.get? ⟨1⟩).any fun e => (e.tree.field? .root "friend").isNone) = true := by
  decide +kernel

/-- The friend of a hero who comes from a fragment under a condition is selected by the hero. -/
theorem heros_friend_is_selected :
    let friend := Heroes.heroField "friend" [] [.field Heroes.nameField]
    let hero := Heroes.heroField "hero" [] [.fragmentSpread "Friendly" [Heroes.includedIf "a"]]
    let o := Heroes.query [.field hero]
    let document : Document := ⟨[o], [⟨⟨"Friendly", "Hero", [], [.field friend]⟩, none⟩]⟩
    ∃ (s : Session) (b : BuiltSelections), s.Reachable document
      ∧ s.Builds (.operation o.definition) b
      ∧ ∃ e ∈ b.entities.entities, e.location.path = ⟨[⟨"hero", .named "Hero"⟩]⟩
        ∧ ∃ scope g, e.tree.field? scope "friend" = some g ∧ g.type = .named "Hero" := by
  intro friend hero o document
  obtain ⟨s, b, reachable, schema, builds, passes⟩ := Session.exists_builds document Heroes.schema o
    (fun b => (b.entities.get? ⟨2⟩).any fun e =>
      e.location.path == ⟨[⟨"hero", .named "Hero"⟩, ⟨"friend", .named "Hero"⟩]⟩) (by decide +kernel)
  have isComposite := Heroes.isComposite_hero schema
  obtain ⟨guard, read, holds⟩ : ∃ guard, Inclusion.ofDirectives [Heroes.includedIf "a"]
      = .ok (some guard) ∧ guard.holds (fun _ => true) = true := ⟨_, rfl, rfl⟩
  -- The fields that are met are the hero, the friend and the name.
  have fields : ∀ q f c, Meets s.view document (.root "Query") [.field hero] q (.field f) c →
      f = hero ∨ f = friend ∨ f = Heroes.nameField := by
    intro q f c h
    rcases (meets_field rfl).mp h with ⟨-, ⟨⟩, -⟩ | ⟨-, h⟩
    · exact Or.inl rfl
    rcases (meets_spread read rfl).mp h with ⟨-, ⟨⟩, -⟩ | h
    rcases (meets_field rfl).mp h with ⟨-, ⟨⟩, -⟩ | ⟨-, h⟩
    · exact Or.inr (Or.inl rfl)
    rcases (meets_field rfl).mp h with ⟨-, ⟨⟩, -⟩ | ⟨-, h⟩
    · exact Or.inr (Or.inr rfl)
    · exact absurd h not_meets_nil
  have agree : FieldsAgree (Meets s.view document (.root "Query") o.definition.selections) := by
    intro q f c q' f' c' met met' _ _ key
    rcases fields _ _ _ met with rfl | rfl | rfl <;> rcases fields _ _ _ met' with rfl | rfl | rfl
    all_goals first | exact ⟨rfl, rfl⟩ | exact absurd key (by decide)
  have met : Meets s.view document (.root "Query") o.definition.selections
      (((Place.root "Query").below hero).follow "Hero" guard) (.field friend) .always := by
    refine .field (List.mem_singleton_self _) rfl isComposite ?_
    refine .spread (List.mem_singleton_self _) read rfl ?_
    exact .here (List.mem_singleton_self _) rfl rfl
  obtain ⟨d, get, path⟩ := (Option.any_eq_true _ _).mp passes
  have held : b.entities.Has (FieldPath.append ⟨[⟨"hero", .named "Hero"⟩]⟩ ⟨"friend", .named "Hero"⟩) :=
    ⟨d, List.mem_of_getElem? get, eq_of_beq path⟩
  obtain ⟨-, e, mem, at_, selected⟩ := parents_select_what_can_be_included document s reachable _ b
    builds agree ⟨[⟨"hero", .named "Hero"⟩]⟩ ⟨"friend", .named "Hero"⟩ held
  refine ⟨s, b, reachable, builds, e, mem, at_, selected.mpr ⟨_, friend, .always, met, rfl, ?_⟩⟩
  refine ⟨fun _ => true, rfl, ?_⟩
  simpa [Place.follow, Place.below] using holds

end SelectionGraph
