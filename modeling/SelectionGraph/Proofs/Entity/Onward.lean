import SelectionGraph.Proofs.Entity.Merged
import SelectionGraph.Proofs.Entity.Unchanged

/-!
# Onward — what entities keep while more is selected on them

Entities keep their numbers, locations and types, and what their trees absorb they absorb ever after.
So whatever was done once, done again later, changes nothing: a field that was inserted is there, and
the entity that it selects is found.

* `ScopeSelections.Absorbs`, `SelectionTree.Absorbs` — persist through insertions and merges;
* `EntityStorage.Onward`      — what one storage keeps of another;
* `onward_entityForField`, `onward_mergeFragmentEntities` and so on — all steps keep it;
* `modifyTree_again`, `entityForField_again` — a field that is selected again.
-/

namespace SelectionGraph

/-! ## Inclusions and scopes -/

theorem Inclusion.absorbs_merge (i j : Inclusion) : (i.merge j).Absorbs j where
  always same := (additive_always i j).mpr (Or.inr same)
  covers c covered := (additive_covers c i j).mpr (Or.inr covered)

theorem Inclusion.Absorbs.merge {i j : Inclusion} (h : i.Absorbs j) (k : Inclusion) :
    (i.merge k).Absorbs j where
  always same := (additive_always i k).mpr (Or.inl (h.always same))
  covers c covered := (additive_covers c i k).mpr (Or.inl (h.covers c covered))

theorem Inclusion.absorbs_self (i : Inclusion) : i.Absorbs i :=
  ⟨id, fun _ => id⟩

namespace ScopeSelections

variable {s : ScopeSelections} {slot : Slot} {i : Inclusion}

/-- The entry of a key absorbs an inclusion. -/
def Absorbs (s : ScopeSelections) (slot : Slot) (i : Inclusion) : Prop :=
  ∃ held, s.inclusion? slot = some held ∧ held.Absorbs i

theorem inclusion?_insertField (s : ScopeSelections) (f : MergedField) :
    (s.insertField f).inclusion? (.field f.responseKey)
      = some ((s.inclusion? (.field f.responseKey)).elim f.inclusion (·.merge f.inclusion)) := by
  have found : (s.insertField f).field? f.responseKey = some ((s.field? f.responseKey).elim f
      fun g => { g with inclusion := g.inclusion.merge f.inclusion }) := by
    refine Ordered.find?_upsert ?_ ?_ s.fields
    · exact beq_self_eq_true _
    · exact fun _ same => same
  rw [inclusion?, inclusion?, found]
  cases s.field? f.responseKey <;> rfl

theorem inclusion?_insertField_of_ne {f : MergedField} {key : Name} (ne : f.responseKey ≠ key) :
    (s.insertField f).inclusion? (.field key) = s.inclusion? (.field key) := by
  have other : ∀ g : MergedField, (g.responseKey == f.responseKey) = true →
      (g.responseKey == key) = false := by
    intro g same
    rw [beq_iff_eq] at same
    rw [same, beq_eq_false_iff_ne]
    exact ne
  refine congrArg (Option.map MergedField.inclusion) ?_
  refine Ordered.find?_upsert_of_other ?_ other ?_ s.fields
  · exact beq_eq_false_iff_ne.mpr ne
  · exact other

theorem inclusion?_insertFragment (s : ScopeSelections) (name : Name) (j : Inclusion) :
    (s.insertFragment name j).inclusion? (.fragment name)
      = some ((s.inclusion? (.fragment name)).elim j (·.merge j)) := by
  have found : (s.insertFragment name j).fragments.find? (fun g => g.1 == name)
      = some ((s.fragments.find? fun g => g.1 == name).elim (name, j)
        fun g => (g.1, g.2.merge j)) := by
    refine Ordered.find?_upsert ?_ ?_ s.fragments
    · exact beq_self_eq_true _
    · exact fun _ same => same
  rw [inclusion?, inclusion?, fragment?_eq, fragment?_eq, found]
  cases s.fragments.find? fun g => g.1 == name <;> rfl

theorem inclusion?_insertFragment_of_ne {name other : Name} {j : Inclusion} (ne : name ≠ other) :
    (s.insertFragment name j).inclusion? (.fragment other) = s.inclusion? (.fragment other) := by
  have apart : ∀ g : Name × Inclusion, (g.1 == name) = true → (g.1 == other) = false := by
    intro g same
    rw [beq_iff_eq] at same
    rw [same, beq_eq_false_iff_ne]
    exact ne
  rw [inclusion?, inclusion?, fragment?_eq, fragment?_eq]
  refine congrArg (Option.map Prod.snd) ?_
  refine Ordered.find?_upsert_of_other ?_ apart ?_ s.fragments
  · exact beq_eq_false_iff_ne.mpr ne
  · exact apart

theorem absorbs_insertField (s : ScopeSelections) (f : MergedField) :
    (s.insertField f).Absorbs (.field f.responseKey) f.inclusion := by
  refine ⟨_, s.inclusion?_insertField f, ?_⟩
  cases s.inclusion? (.field f.responseKey) with
  | none => exact Inclusion.absorbs_self _
  | some held => exact Inclusion.absorbs_merge held _

theorem Absorbs.insertField (h : s.Absorbs slot i) (f : MergedField) :
    (s.insertField f).Absorbs slot i := by
  obtain ⟨held, found, absorbs⟩ := h
  cases slot with
  | fragment name => exact ⟨held, found, absorbs⟩
  | field key =>
      by_cases same : f.responseKey = key
      · subst same
        exact ⟨held.merge f.inclusion, by rw [inclusion?_insertField, found]; rfl, absorbs.merge _⟩
      · exact ⟨held, (inclusion?_insertField_of_ne same).trans found, absorbs⟩

theorem Absorbs.insertFragment (h : s.Absorbs slot i) (name : Name) (j : Inclusion) :
    (s.insertFragment name j).Absorbs slot i := by
  obtain ⟨held, found, absorbs⟩ := h
  cases slot with
  | field key => exact ⟨held, found, absorbs⟩
  | fragment other =>
      by_cases same : name = other
      · subst same
        exact ⟨held.merge j, by rw [inclusion?_insertFragment, found]; rfl, absorbs.merge _⟩
      · exact ⟨held, (inclusion?_insertFragment_of_ne same).trans found, absorbs⟩

end ScopeSelections

/-! ## Trees -/

namespace SelectionTree

variable {t : SelectionTree} {path : ScopePath} {slot : Slot} {i : Inclusion}

theorem absorbs_iff_scope : t.Absorbs path slot i ↔ ∃ s, t.scope? path = some s ∧ s.Absorbs slot i := by
  simp only [Absorbs, inclusion?, Option.bind_eq_some_iff, ScopeSelections.Absorbs]
  constructor
  · rintro ⟨held, ⟨s, scope, found⟩, absorbs⟩
    exact ⟨s, scope, held, found, absorbs⟩
  · rintro ⟨s, scope, held, found, absorbs⟩
    exact ⟨held, ⟨s, scope, found⟩, absorbs⟩

theorem Absorbs.modifyScope (h : t.Absorbs path slot i) (target : ScopePath)
    {change : ScopeSelections → ScopeSelections}
    (keeps : ∀ s : ScopeSelections, s.Absorbs slot i → (change s).Absorbs slot i) :
    (t.modifyScope target change).Absorbs path slot i := by
  obtain ⟨s, scope, absorbs⟩ := absorbs_iff_scope.mp h
  rw [absorbs_iff_scope, scope?_modifyScope, scope]
  split
  · exact ⟨change s, rfl, keeps s absorbs⟩
  · exact ⟨s, rfl, absorbs⟩

/-- A field that was inserted is absorbed. -/
theorem absorbs_insertField (t : SelectionTree) (path : ScopePath) (f : MergedField) :
    (t.insertField path f).Absorbs path (.field f.responseKey) f.inclusion := by
  rw [absorbs_iff_scope, insertField, scope?_modifyScope, if_pos BEq.rfl]
  exact ⟨_, rfl, ScopeSelections.absorbs_insertField _ f⟩

theorem Absorbs.insertField (h : t.Absorbs path slot i) (target : ScopePath) (f : MergedField) :
    (t.insertField target f).Absorbs path slot i :=
  h.modifyScope target fun _ absorbs => absorbs.insertField f

theorem Absorbs.insertFragment (h : t.Absorbs path slot i) (target : ScopePath) (name : Name)
    (j : Inclusion) : (t.insertFragment target name j).Absorbs path slot i :=
  h.modifyScope target fun _ absorbs => absorbs.insertFragment name j

theorem Absorbs.mergeTree (h : t.Absorbs path slot i) (o : SelectionTree) (site : ScopePath)
    (guard : Inclusion) : (t.mergeTree o site guard).Absorbs path slot i :=
  mergeTree_induction (P := fun u => u.Absorbs path slot i)
    (fun _ target f absorbs => absorbs.insertField target f)
    (fun _ target name j absorbs => absorbs.insertFragment target name j) h o site guard

/-- What a tree keeps while it is changed: its types, and what it absorbs. -/
structure Onward (t t' : SelectionTree) : Prop where
  types : t'.typePath = t.typePath
  absorbs : ∀ path slot i, t.Absorbs path slot i → t'.Absorbs path slot i

theorem Onward.refl (t : SelectionTree) : t.Onward t :=
  ⟨rfl, fun _ _ _ => id⟩

theorem onward_insertField (t : SelectionTree) (path : ScopePath) (f : MergedField) :
    t.Onward (t.insertField path f) :=
  ⟨rfl, fun _ _ _ h => h.insertField path f⟩

theorem onward_insertFragment (t : SelectionTree) (path : ScopePath) (name : Name) (j : Inclusion) :
    t.Onward (t.insertFragment path name j) :=
  ⟨rfl, fun _ _ _ h => h.insertFragment path name j⟩

theorem onward_mergeTree (t o : SelectionTree) (site : ScopePath) (guard : Inclusion) :
    t.Onward (t.mergeTree o site guard) where
  types := mergeTree_induction (P := fun u => u.typePath = t.typePath)
    (fun _ _ _ same => same) (fun _ _ _ _ same => same) rfl o site guard
  absorbs _ _ _ h := h.mergeTree o site guard

end SelectionTree

/-! ## Storages -/

/-- What an entity keeps. -/
structure Entity.Onward (e e' : Entity) : Prop where
  id : e'.id = e.id
  location : e'.location = e.location
  tree : e.tree.Onward e'.tree

theorem Entity.Onward.refl (e : Entity) : e.Onward e :=
  ⟨rfl, rfl, .refl e.tree⟩

theorem Entity.Onward.trans {e e' e'' : Entity} (h : e.Onward e') (h' : e'.Onward e'') :
    e.Onward e'' where
  id := h'.id.trans h.id
  location := h'.location.trans h.location
  tree := ⟨h'.tree.types.trans h.tree.types,
    fun path slot i => h'.tree.absorbs path slot i ∘ h.tree.absorbs path slot i⟩

namespace EntityStorage

variable {s s' s'' : EntityStorage}

/-- What a storage keeps: its source, the entity of every number, and which entity is found at a
location. -/
structure Onward (s s' : EntityStorage) : Prop where
  source : s'.source = s.source
  get? : ∀ id e, s.get? id = some e → ∃ e', s'.get? id = some e' ∧ e.Onward e'
  found : ∀ l id, (s.atLocation? l).map Entity.id = some id →
    (s'.atLocation? l).map Entity.id = some id

theorem Onward.refl (s : EntityStorage) : s.Onward s :=
  ⟨rfl, fun _ e held => ⟨e, held, .refl e⟩, fun _ _ => id⟩

theorem Onward.trans (h : s.Onward s') (h' : s'.Onward s'') : s.Onward s'' where
  source := h'.source.trans h.source
  get? id e held := by
    obtain ⟨e', held', onward⟩ := h.get? id e held
    obtain ⟨e'', held'', onward'⟩ := h'.get? id e' held'
    exact ⟨e'', held'', onward.trans onward'⟩
  found l id at_ := h'.found l id (h.found l id at_)

/-- An entity that is there is there later on. -/
theorem Onward.get (h : s.Onward s') {id : EntityId} {e : Entity} (held : s.get id = .ok e) :
    ∃ e', s'.get id = .ok e' ∧ e.Onward e' := by
  obtain ⟨e', held', onward⟩ := h.get? id e (get_eq_ok_iff.mp held)
  exact ⟨e', get_eq_ok_iff.mpr held', onward⟩

/-! ### Steps -/

/-- Where entities are found does not depend on their trees. -/
theorem atLocation?_modifyTree (s : EntityStorage) (id : EntityId)
    (change : SelectionTree → SelectionTree) (l : Location) :
    ((s.modifyTree id change).atLocation? l).map Entity.id = (s.atLocation? l).map Entity.id := by
  let view : Entity → EntityId × Location := fun e => (e.id, e.location)
  have kept : (s.modifyTree id change).entities.map view = s.entities.map view :=
    Ordered.map_modify (fun d : Entity => { d with tree := change d.tree }) (fun _ => rfl) s.entities
      id.index
  have found : ∀ s : EntityStorage, (s.atLocation? l).map Entity.id
      = ((s.entities.map view).find? fun x => x.2 == l).map Prod.fst := by
    intro s
    rw [List.find?_map, Option.map_map]
    rfl
  rw [found, found, kept]

theorem onward_modifyTree (s : EntityStorage) (id : EntityId)
    {change : SelectionTree → SelectionTree} (keeps : ∀ t : SelectionTree, t.Onward (change t)) :
    s.Onward (s.modifyTree id change) where
  source := rfl
  get? i e held := by
    have modified : (s.modifyTree id change).get? i
        = (s.get? i).map fun e => if id.index = i.index then { e with tree := change e.tree } else e := by
      rw [EntityStorage.get?, EntityStorage.get?, modifyTree, List.getElem?_modify]
      rfl
    rw [modified, held]
    refine ⟨_, rfl, ?_⟩
    split
    · exact ⟨rfl, rfl, keeps e.tree⟩
    · exact .refl e
  found l i at_ := (s.atLocation?_modifyTree id change l).trans at_

theorem onward_entityAt (s : EntityStorage) (l : Location) (types : TypePath) :
    s.Onward (s.entityAt l types).2 := by
  unfold entityAt
  cases absent : s.atLocation? l with
  | some e => exact .refl s
  | none =>
      refine ⟨rfl, fun id e held => ⟨e, get?_append held, .refl e⟩, fun m id at_ => ?_⟩
      obtain ⟨e, first, rfl⟩ := Option.map_eq_some_iff.mp at_
      rw [atLocation?, List.find?_append]
      rw [atLocation?] at first
      rw [first]
      rfl

/-- The entity of a location is found there afterwards. -/
theorem found_entityAt (s : EntityStorage) (l : Location) (types : TypePath) :
    ((s.entityAt l types).2.atLocation? l).map Entity.id = some (s.entityAt l types).1.id := by
  unfold entityAt
  cases absent : s.atLocation? l with
  | some e =>
      dsimp only
      rw [absent]
      rfl
  | none =>
      dsimp only
      rw [atLocation?] at absent
      have here : (l == l) = true := Location.beq_iff.mpr ⟨rfl, rfl⟩
      rw [atLocation?, List.find?_append, absent]
      simp [here]

theorem onward_entityForField {enclosing id : EntityId} {c : PathComponent}
    (selected : s.entityForField enclosing c = .ok (id, s')) : s.Onward s' := by
  obtain ⟨e, -, made⟩ := bind_eq_ok.mp selected
  cases made
  exact s.onward_entityAt _ _

theorem onward_mergeEntity {site added : Entity} {scope : ScopePath} {guard : Inclusion}
    (merged : s.mergeEntity site scope guard added = .ok s') : s.Onward s' := by
  unfold mergeEntity at merged
  split at merged
  · cases merged
    exact (s.onward_entityAt _ _).trans
      (onward_modifyTree _ _ fun t => t.onward_mergeTree added.tree scope guard)
  · dsimp only at merged
    split at merged
    · cases merged
      exact (s.onward_entityAt _ _).trans
        (onward_modifyTree _ _ fun t => t.onward_mergeTree added.tree .root .always)
    · cases merged

theorem onward_mergeFragmentEntities {site : EntityId} {scope : ScopePath} {guard : Inclusion}
    {fragment : EntityStorage} (merged : s.mergeFragmentEntities site scope guard fragment = .ok s') :
    s.Onward s' := by
  obtain ⟨e, -, folded⟩ := bind_eq_ok.mp merged
  clear merged
  generalize fragment.entities = added at folded
  induction added generalizing s with
  | nil =>
      cases folded
      exact .refl _
  | cons first rest ih =>
      rw [List.foldlM_cons] at folded
      obtain ⟨s₁, merged₁, later⟩ := bind_eq_ok.mp folded
      exact (onward_mergeEntity merged₁).trans (ih later)

/-! ### Again -/

/-- A change that leaves the tree of an entity as it is leaves all entities as they are. -/
theorem modifyTree_eq_self {id : EntityId} {change : SelectionTree → SelectionTree} {e : Entity}
    (held : s.get? id = some e) (same : change e.tree = e.tree) : s.modifyTree id change = s := by
  have entities : s.entities.modify id.index (fun e => { e with tree := change e.tree })
      = s.entities := by
    apply List.ext_getElem?
    intro i
    rw [List.getElem?_modify]
    by_cases here : id.index = i
    · subst here
      rw [show s.entities[id.index]? = some e from held]
      simp [same]
    · simp [here]
  rw [modifyTree, entities]

/-- A field that was inserted on an entity is inserted again later. -/
theorem modifyTree_again {id : EntityId} {path : ScopePath} {f : MergedField} {e : Entity}
    (held : s.get? id = some e)
    (onward : (s.modifyTree id fun t => t.insertField path f).Onward s') :
    s'.modifyTree id (fun t => t.insertField path f) = s' := by
  have inserted : (s.modifyTree id fun t => t.insertField path f).get? id
      = some { e with tree := e.tree.insertField path f } := by
    rw [get?] at held
    rw [get?, modifyTree, List.getElem?_modify, held]
    simp
  obtain ⟨e', held', kept⟩ := onward.get? id _ inserted
  refine modifyTree_eq_self held' (SelectionTree.insertField_eq_self ?_)
  exact kept.tree.absorbs _ _ _ (e.tree.absorbs_insertField path f)

/-- An entity that a field selected is selected again later, and nothing is created. -/
theorem entityForField_again {enclosing id : EntityId} {c : PathComponent}
    (selected : s.entityForField enclosing c = .ok (id, s')) (onward : s'.Onward s'') :
    s''.entityForField enclosing c = .ok (id, s'') := by
  obtain ⟨e, held, made⟩ := bind_eq_ok.mp selected
  cases made
  obtain ⟨e', held', kept⟩ := ((s.onward_entityAt _ _).trans onward).get held
  have there := onward.found _ _ (s.found_entityAt (e.location.append c)
    (e.tree.typePath.append c.type.innerName))
  obtain ⟨x, found, isSame⟩ := Option.map_eq_some_iff.mp there
  rw [entityForField, held']
  change Except.ok ((s''.entityAt (e'.location.append c) _).1.id, (s''.entityAt _ _).2) = _
  rw [kept.location, entityAt, found]
  exact congrArg (fun id => Except.ok (id, s'')) isSame

end EntityStorage
end SelectionGraph
