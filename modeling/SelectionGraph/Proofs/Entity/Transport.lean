import SelectionGraph.Entity.Storage

/-!
# Transport — entities of a definition that is given differently

The entities of a definition bear it in their locations.  What is done with them looks at which
definition it is and at how it is written in an error; it may be replaced by another that is the same
in both.

* `SourceDefinition.Faithful` — definitions are replaced by such others;
* `EntityStorage.transport`   — entities with the definition replaced;
* `entityForField_transport`, `mergeFragmentEntities_transport` — what is done with them is the same
  before and after.
-/

namespace SelectionGraph

variable (φ : SourceDefinition → SourceDefinition)

def Location.transport (l : Location) : Location :=
  { l with source := φ l.source }

def Entity.transport (e : Entity) : Entity :=
  { e with location := e.location.transport φ }

def EntityStorage.transport (s : EntityStorage) : EntityStorage :=
  ⟨φ s.source, s.entities.map (Entity.transport φ)⟩

/-- Different definitions stay different and equal ones equal, and all are written as before. -/
structure SourceDefinition.Faithful : Prop where
  same : ∀ s t, (φ s == φ t) = (s == t)
  render : ∀ s, (φ s).render = s.render

@[simp] theorem Location.path_transport (l : Location) : (l.transport φ).path = l.path := rfl

@[simp] theorem Location.isRoot_transport (l : Location) :
    (l.transport φ).isRoot = l.isRoot := rfl

@[simp] theorem Location.append_transport (l : Location) (c : PathComponent) :
    (l.transport φ).append c = (l.append c).transport φ := rfl

@[simp] theorem Location.appendAll_transport (l : Location) (cs : List PathComponent) :
    (l.transport φ).appendAll cs = (l.appendAll cs).transport φ := rfl

@[simp] theorem Entity.id_transport (e : Entity) : (e.transport φ).id = e.id := rfl

@[simp] theorem Entity.location_transport (e : Entity) :
    (e.transport φ).location = e.location.transport φ := rfl

@[simp] theorem Entity.tree_transport (e : Entity) : (e.transport φ).tree = e.tree := rfl

@[simp] theorem Entity.rootType_transport (e : Entity) : (e.transport φ).rootType = e.rootType := rfl

section Faithful

variable {φ} (faithful : SourceDefinition.Faithful φ)

include faithful

theorem Location.render_transport (l : Location) : (l.transport φ).render = l.render := by
  rw [render, render, isRoot_transport, path_transport]
  rw [show (l.transport φ).source.render = l.source.render from faithful.render l.source]

theorem Location.beq_transport (l m : Location) : (l.transport φ == m.transport φ) = (l == m) :=
  congrArg (· && (l.path == m.path)) (faithful.same l.source m.source)

namespace EntityStorage

omit faithful in
theorem require_transport (s : EntityStorage) (id : EntityId) (lookup : EntityLookup) :
    (s.transport φ).require id lookup = (s.require id lookup).map (Entity.transport φ) := by
  rw [require, require, get?, get?, transport, List.getElem?_map]
  cases s.entities[id.index]? <;> rfl

theorem get_transport (s : EntityStorage) (id : EntityId) :
    (s.transport φ).get id = (s.get id).map (Entity.transport φ) := by
  have named : (s.transport φ).source.render = s.source.render := faithful.render s.source
  rw [get, get, named, require_transport]

omit faithful in
theorem modifyTree_transport (s : EntityStorage) (id : EntityId)
    (change : SelectionTree → SelectionTree) :
    (s.transport φ).modifyTree id change = (s.modifyTree id change).transport φ := by
  rw [modifyTree, modifyTree, transport, transport]
  congr 1
  -- Entity by entity: only the one of that number has its tree changed.
  apply List.ext_getElem?
  intro i
  simp only [List.getElem?_modify, List.getElem?_map]
  cases s.entities[i]? with
  | none => rfl
  | some e =>
      by_cases here : id.index = i
      · simp [here, Entity.transport]
      · simp [here]

theorem atLocation?_transport (s : EntityStorage) (l : Location) :
    (s.transport φ).atLocation? (l.transport φ) = (s.atLocation? l).map (Entity.transport φ) := by
  rw [atLocation?, atLocation?, transport, List.find?_map]
  congr 2
  funext e
  exact Location.beq_transport faithful e.location l

theorem entityAt_transport (s : EntityStorage) (l : Location) (types : TypePath) :
    (s.transport φ).entityAt (l.transport φ) types
      = ((s.entityAt l types).1.transport φ, (s.entityAt l types).2.transport φ) := by
  rw [entityAt, entityAt, atLocation?_transport faithful]
  cases s.atLocation? l with
  | some e => rfl
  | none => simp [transport, Entity.transport]

theorem entityForField_transport (s : EntityStorage) (enclosing : EntityId) (c : PathComponent) :
    (s.transport φ).entityForField enclosing c
      = (s.entityForField enclosing c).map fun r => (r.1, r.2.transport φ) := by
  rw [entityForField, entityForField, get_transport faithful]
  cases s.get enclosing with
  | error e => rfl
  | ok e =>
      change (do let r ← Except.ok ((s.transport φ).entityAt ((e.transport φ).location.append c)
        ((e.transport φ).tree.typePath.append c.type.innerName)); pure (r.1.id, r.2)) = _
      rw [Entity.location_transport, Location.append_transport, entityAt_transport faithful]
      rfl

theorem mergeEntity_transport (s : EntityStorage) (site added : Entity) (scope : ScopePath)
    (guard : Inclusion) :
    (s.transport φ).mergeEntity (site.transport φ) scope guard (added.transport φ)
      = (s.mergeEntity site scope guard added).map (transport φ) := by
  simp only [mergeEntity, Entity.location_transport, Entity.tree_transport,
    Entity.rootType_transport, Location.isRoot_transport, Location.path_transport,
    Location.appendAll_transport, entityAt_transport faithful, Entity.id_transport,
    modifyTree_transport, Location.render_transport faithful]
  split
  · rfl
  · split <;> rfl

theorem mergeFragmentEntities_transport
    (s fragment : EntityStorage) (site : EntityId) (scope : ScopePath) (guard : Inclusion) :
    (s.transport φ).mergeFragmentEntities site scope guard (fragment.transport φ)
      = (s.mergeFragmentEntities site scope guard fragment).map (transport φ) := by
  rw [mergeFragmentEntities, mergeFragmentEntities, get_transport faithful]
  cases s.get site with
  | error e => rfl
  | ok e =>
      change (fragment.entities.map (Entity.transport φ)).foldlM _ _
        = Except.map _ (fragment.entities.foldlM _ _)
      generalize fragment.entities = added
      induction added generalizing s with
      | nil => rfl
      | cons first rest ih =>
          rw [List.map_cons, List.foldlM_cons, List.foldlM_cons, mergeEntity_transport faithful]
          cases s.mergeEntity e scope guard first with
          | error e => rfl
          | ok s => exact ih s

end EntityStorage

end Faithful

end SelectionGraph
