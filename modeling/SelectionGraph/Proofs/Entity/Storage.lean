import SelectionGraph.Entity.Storage
import SelectionGraph.Proofs.Entity.Tree

/-!
# Storage — one entity for each location, and what the operations add

* `EntityStorage.WellFormed` — the entities are numbered in order, each at a location of its own,
  below an entity that came before it, with the types of its path;
* `EntityStorage.Grows`      — one storage comes from another by reaching some paths and adding some
  entries;
* `start_wellFormed`, `grows_entityForField`, `grows_modifyTree`, `grows_mergeFragmentEntities` —
  every operation keeps a storage well-formed, and what it adds.

`Grows` composes, so what a walk adds is put together from what its steps add.
-/

namespace SelectionGraph

/-! ## Results -/

theorem bind_eq_ok {α β : Type} {e : Except BuildError α} {k : α → Except BuildError β} {b : β} :
    (e >>= k) = .ok b ↔ ∃ a, e = .ok a ∧ k a = .ok b := by
  cases e <;> simp [bind, Except.bind]

theorem bind_eq_error {α β : Type} {r : Except BuildError α} {k : α → Except BuildError β}
    {e : BuildError} : (r >>= k) = .error e ↔ r = .error e ∨ ∃ a, r = .ok a ∧ k a = .error e := by
  cases r <;> simp [bind, Except.bind]

theorem eq_ok_of_toOption {α : Type} {e : Except BuildError α} {a : α}
    (h : e.toOption = some a) : e = .ok a := by
  cases e with
  | ok b => exact congrArg Except.ok (Option.some.inj h)
  | error e => cases h

/-! ## Paths -/

namespace FieldPath

theorem components_injective {p q : FieldPath} (h : p.components = q.components) : p = q := by
  cases p
  cases q
  exact congrArg FieldPath.mk h

@[simp] theorem components_append (p : FieldPath) (c : PathComponent) :
    (p.append c).components = p.components ++ [c] := rfl

@[simp] theorem components_appendAll (p : FieldPath) (cs : List PathComponent) :
    (p.appendAll cs).components = p.components ++ cs := rfl

@[simp] theorem isRoot_append (p : FieldPath) (c : PathComponent) : (p.append c).isRoot = false := by
  simp [isRoot]

theorem isRoot_iff {p : FieldPath} : p.isRoot = true ↔ p = root := by
  rw [isRoot, List.isEmpty_iff]
  exact ⟨fun h => components_injective h, fun h => h ▸ rfl⟩

@[simp] theorem root_append_ne {p : FieldPath} {c : PathComponent} : p.append c ≠ root := by
  intro h
  have := congrArg isRoot h
  simp [isRoot, root] at this

theorem append_inj {p q : FieldPath} {c d : PathComponent} (h : p.append c = q.append d) :
    p = q ∧ c = d := by
  have := congrArg components h
  rw [components_append, components_append] at this
  obtain ⟨hp, hc⟩ := List.append_inj' this rfl
  exact ⟨components_injective hp, List.singleton_injective hc⟩

@[simp] theorem appendAll_root (p : FieldPath) : p.appendAll root.components = p :=
  components_injective (List.append_nil _)

theorem appendAll_append (p q : FieldPath) (c : PathComponent) :
    p.appendAll (q.append c).components = (p.appendAll q.components).append c :=
  components_injective (by simp)

/-- The types of the entities along a path, below the root. -/
def types (p : FieldPath) : List Name :=
  p.components.map fun c => c.type.innerName

@[simp] theorem types_root : root.types = [] := rfl

@[simp] theorem types_append (p : FieldPath) (c : PathComponent) :
    (p.append c).types = p.types ++ [c.type.innerName] := by
  simp [types]

@[simp] theorem types_appendAll (p q : FieldPath) :
    (p.appendAll q.components).types = p.types ++ q.types := by
  simp [types]

end FieldPath

/-- Either the root, or one step below a path. -/
theorem FieldPath.eq_root_or_append (p : FieldPath) : p = root ∨ ∃ q c, p = append q c := by
  rcases List.eq_nil_or_concat p.components with h | ⟨cs, c, h⟩
  · exact Or.inl (components_injective h)
  · exact Or.inr ⟨⟨cs⟩, c, components_injective (h.trans List.concat_eq_append)⟩

namespace Location

@[simp] theorem path_append (l : Location) (c : PathComponent) :
    (l.append c).path = l.path.append c := rfl

theorem beq_iff {l m : Location} :
    (l == m) = true ↔ l.source.id = m.source.id ∧ l.path = m.path := by
  change (l.source.id == m.source.id && l.path == m.path) = true ↔ _
  rw [Bool.and_eq_true, beq_iff_eq, beq_iff_eq]

@[simp] theorem path_root (source : SourceDefinition) : (root source).path = .root := rfl

end Location

/-! ## Reading a storage -/

namespace EntityStorage

variable {σ : Assignment} {s s' s'' : EntityStorage}

/-- There is an entity at a path. -/
def Has (s : EntityStorage) (path : FieldPath) : Prop :=
  ∃ e ∈ s.entities, e.location.path = path

/-- The entity at a path holds an entry that is included, in a scope. -/
def Holds (σ : Assignment) (s : EntityStorage) (path : FieldPath) (scope : ScopePath)
    (slot : Slot) : Prop :=
  ∃ e ∈ s.entities, e.location.path = path ∧ e.tree.Holds σ scope slot

/-- The path of an entity. -/
def pathOf? (s : EntityStorage) (id : EntityId) : Option FieldPath :=
  (s.get? id).map fun e => e.location.path

/-- The entities are numbered in order, each at a location of its own. -/
structure WellFormed (s : EntityStorage) : Prop where
  sources : ∀ e ∈ s.entities, e.location.source = s.source
  ids : ∀ (i : Nat) (e : Entity), s.entities[i]? = some e → e.id = ⟨i⟩
  distinct : s.entities.Pairwise fun a b => a.location.path ≠ b.location.path
  rootFirst : s.pathOf? .root = some .root
  parents : ∀ (i : Nat) (p : FieldPath) (c : PathComponent), s.pathOf? ⟨i⟩ = some (p.append c) →
      ∃ j < i, s.pathOf? ⟨j⟩ = some p
  types : ∀ e ∈ s.entities, e.tree.typePath.toList = s.source.rootType :: e.location.path.types
  keyed : ∀ e ∈ s.entities, e.tree.Keyed

/-- Entities keep their numbers. -/
structure Extends (s s' : EntityStorage) : Prop where
  source : s'.source = s.source
  paths : ∀ id p, s.pathOf? id = some p → s'.pathOf? id = some p

/-- One storage comes from another by reaching some paths and adding some entries. -/
structure Grows (s s' : EntityStorage) (reached : FieldPath → Prop)
    (added : Assignment → FieldPath → ScopePath → Slot → Prop) : Prop where
  wellFormed : s'.WellFormed
  extended : s.Extends s'
  has : ∀ path, s'.Has path ↔ s.Has path ∨ reached path
  holds : ∀ σ path scope slot,
    s'.Holds σ path scope slot ↔ s.Holds σ path scope slot ∨ added σ path scope slot

theorem Extends.refl (s : EntityStorage) : s.Extends s :=
  ⟨rfl, fun _ _ h => h⟩

theorem Extends.trans (h₁ : s.Extends s') (h₂ : s'.Extends s'') : s.Extends s'' :=
  ⟨h₂.source.trans h₁.source, fun id p h => h₂.paths id p (h₁.paths id p h)⟩

namespace Grows

variable {reached reached' : FieldPath → Prop}
  {added added' : Assignment → FieldPath → ScopePath → Slot → Prop}

theorem refl (h : s.WellFormed) : Grows s s (fun _ => False) (fun _ _ _ _ => False) :=
  ⟨h, .refl s, fun _ => (or_iff_left id).symm, fun _ _ _ _ => (or_iff_left id).symm⟩

theorem trans (h₁ : Grows s s' reached added) (h₂ : Grows s' s'' reached' added') :
    Grows s s'' (fun p => reached p ∨ reached' p)
      (fun σ p sc slot => added σ p sc slot ∨ added' σ p sc slot) where
  wellFormed := h₂.wellFormed
  extended := h₁.extended.trans h₂.extended
  has path := by rw [h₂.has, h₁.has, or_assoc]
  holds σ path scope slot := by rw [h₂.holds, h₁.holds, or_assoc]

theorem congr (h : Grows s s' reached added) (hr : ∀ p, reached p ↔ reached' p)
    (ha : ∀ σ p sc slot, added σ p sc slot ↔ added' σ p sc slot) : Grows s s' reached' added' where
  wellFormed := h.wellFormed
  extended := h.extended
  has path := by rw [h.has, hr]
  holds σ path scope slot := by rw [h.holds, ha]

/-- Paths that were there already may count as reached or not. -/
theorem reaching_iff (held : ∀ p, reached' p → s.Has p) :
    Grows s s' (fun p => reached p ∨ reached' p) added ↔ Grows s s' reached added := by
  have same : ∀ path, s.Has path ∨ (reached path ∨ reached' path) ↔ s.Has path ∨ reached path := by
    intro path
    rw [← or_assoc]
    exact or_iff_left_of_imp fun again => Or.inl (held path again)
  constructor
  · intro h
    exact ⟨h.wellFormed, h.extended, fun path => (h.has path).trans (same path), h.holds⟩
  · intro h
    exact ⟨h.wellFormed, h.extended, fun path => (h.has path).trans (same path).symm, h.holds⟩

end Grows

/-! ## Look-ups -/

theorem pathOf?_eq_some_iff {id : EntityId} {p : FieldPath} :
    s.pathOf? id = some p ↔ ∃ e, s.get? id = some e ∧ e.location.path = p := by
  rw [pathOf?, Option.map_eq_some_iff]

theorem has_iff {path : FieldPath} : s.Has path ↔ ∃ id, s.pathOf? id = some path := by
  constructor
  · rintro ⟨e, mem, rfl⟩
    obtain ⟨i, found⟩ := List.mem_iff_getElem?.mp mem
    exact ⟨⟨i⟩, pathOf?_eq_some_iff.mpr ⟨e, found, rfl⟩⟩
  · rintro ⟨id, found⟩
    obtain ⟨e, get, rfl⟩ := pathOf?_eq_some_iff.mp found
    exact ⟨e, List.mem_of_getElem? get, rfl⟩

theorem require_eq_ok_iff {id : EntityId} {lookup : EntityLookup} {e : Entity} :
    s.require id lookup = .ok e ↔ s.get? id = some e := by
  unfold require
  cases s.get? id <;> simp

theorem get_eq_ok_iff {id : EntityId} {e : Entity} : s.get id = .ok e ↔ s.get? id = some e :=
  require_eq_ok_iff

namespace WellFormed

variable {e e' : Entity}

/-- The entity of a location is the only one there.  All entities have the source of the storage, so
only paths matter. -/
theorem atLocation?_eq_some_iff (h : s.WellFormed) {l : Location} (source : l.source = s.source) :
    s.atLocation? l = some e ↔ e ∈ s.entities ∧ e.location.path = l.path := by
  constructor
  · intro first
    have same := List.find?_some (show s.entities.find? (fun d => d.location == l) = some e from first)
    exact ⟨List.mem_of_find?_eq_some first, (Location.beq_iff.mp same).2⟩
  · rintro ⟨mem, same⟩
    have here : (e.location == l) = true :=
      Location.beq_iff.mpr ⟨by rw [h.sources e mem, source], same⟩
    refine Ordered.find?_eq_some_of_apart (h.distinct.imp ?_) mem here
    intro a b ne sameA
    rw [Bool.eq_false_iff]
    intro sameB
    exact ne ((Location.beq_iff.mp sameA).2.trans (Location.beq_iff.mp sameB).2.symm)

theorem unique (h : s.WellFormed) (mem : e ∈ s.entities) (mem' : e' ∈ s.entities)
    (same : e.location.path = e'.location.path) : e = e' := by
  have found := (h.atLocation?_eq_some_iff (h.sources e mem)).mpr ⟨mem, rfl⟩
  have found' := (h.atLocation?_eq_some_iff (h.sources e mem)).mpr ⟨mem', same.symm⟩
  exact Option.some.inj (found.symm.trans found')

theorem get?_id (h : s.WellFormed) (mem : e ∈ s.entities) : s.get? e.id = some e := by
  obtain ⟨i, found⟩ := List.mem_iff_getElem?.mp mem
  rw [h.ids i e found]
  exact found

/-- Two entities at one path have the same number. -/
theorem pathOf?_injective (h : s.WellFormed) {id id' : EntityId} {p : FieldPath}
    (at_ : s.pathOf? id = some p) (at' : s.pathOf? id' = some p) : id = id' := by
  obtain ⟨e, get, path⟩ := pathOf?_eq_some_iff.mp at_
  obtain ⟨e', get', path'⟩ := pathOf?_eq_some_iff.mp at'
  have same := h.unique (List.mem_of_getElem? get) (List.mem_of_getElem? get') (path.trans path'.symm)
  subst same
  have := (h.ids _ _ get).symm.trans (h.ids _ _ get')
  exact this

/-- The type that an entity is selected as ends its path. -/
theorem rootType (h : s.WellFormed) (mem : e ∈ s.entities) :
    e.rootType = (s.source.rootType :: e.location.path.types).getLast (List.cons_ne_nil _ _) := by
  have types := h.types e mem
  have own : e.rootType = e.tree.typePath.toList.getLast (by simp [TypePath.toList]) := by
    simp [Entity.rootType, SelectionTree.rootType, TypePath.toList]
  rw [own]
  congr 1

end WellFormed

theorem start_wellFormed (source : SourceDefinition) : (start source).WellFormed where
  sources := by simp [start, Location.root]
  ids i e found := by
    cases i with
    | zero =>
        obtain rfl : _ = e := by simpa [start] using found
        rfl
    | succ i => simp [start] at found
  distinct := List.pairwise_singleton _ _
  rootFirst := rfl
  parents i p c found := by
    cases i with
    | zero =>
        have : FieldPath.root = p.append c := by simpa [pathOf?, get?, start] using found
        exact absurd this.symm FieldPath.root_append_ne
    | succ i => simp [pathOf?, get?, start] at found
  types := by simp [start, SelectionTree.empty, TypePath.root, TypePath.toList]
  keyed := by simpa [start] using SelectionTree.keyed_empty _

theorem has_start {source : SourceDefinition} {path : FieldPath} :
    (start source).Has path ↔ path = .root := by
  simp [Has, start, eq_comm]

theorem not_holds_start {source : SourceDefinition} {path : FieldPath} {scope : ScopePath}
    {slot : Slot} : ¬ (start source).Holds σ path scope slot := by
  simp [Holds, start, SelectionTree.not_holds_empty]

/-! ## Entities that are looked up or created -/

theorem get?_append {e : Entity} {id : EntityId} {d : Entity} (found : s.get? id = some d) :
    ({ s with entities := s.entities ++ [e] } : EntityStorage).get? id = some d := by
  obtain ⟨lt, rfl⟩ := List.getElem?_eq_some_iff.mp found
  exact (List.getElem?_append_left lt).trans found

theorem pathOf?_append {e : Entity} {id : EntityId} {p : FieldPath} (found : s.pathOf? id = some p) :
    ({ s with entities := s.entities ++ [e] } : EntityStorage).pathOf? id = some p := by
  obtain ⟨d, get, path⟩ := pathOf?_eq_some_iff.mp found
  exact pathOf?_eq_some_iff.mpr ⟨d, get?_append get, path⟩

/-- The entity of a number, after one was appended: the new one, or one from before. -/
theorem get?_of_append {e d : Entity} {id : EntityId}
    (found : ({ s with entities := s.entities ++ [e] } : EntityStorage).get? id = some d) :
    s.get? id = some d ∨ id = ⟨s.entities.length⟩ ∧ d = e := by
  obtain ⟨i⟩ := id
  have at_ : (s.entities ++ [e])[i]? = some d := found
  rcases Nat.lt_trichotomy i s.entities.length with lt | rfl | gt
  · exact Or.inl ((List.getElem?_append_left lt).symm.trans at_)
  · exact Or.inr ⟨rfl, Option.some.inj (at_.symm.trans List.getElem?_concat_length)⟩
  · rw [List.getElem?_eq_none (by simpa using Nat.succ_le_of_lt gt)] at at_
    cases at_

theorem WellFormed.append (h : s.WellFormed) {location : Location} {types : TypePath}
    (source : location.source = s.source) (new : ¬ s.Has location.path)
    (typed : types.toList = s.source.rootType :: location.path.types)
    (parent : ∀ p c, location.path = FieldPath.append p c → s.Has p) :
    WellFormed { s with
      entities := s.entities ++ [⟨⟨s.entities.length⟩, location, .empty types⟩] } where
  sources := by
    simp only [List.forall_mem_append, List.forall_mem_singleton]
    exact ⟨h.sources, source⟩
  ids i e found := by
    obtain before | ⟨number, rfl⟩ := get?_of_append (show get? _ ⟨i⟩ = some e from found)
    · exact h.ids i e before
    · exact number.symm
  distinct := by
    refine List.pairwise_append.mpr ⟨h.distinct, List.pairwise_singleton _ _, ?_⟩
    intro a mem b memB
    rw [List.mem_singleton.mp memB]
    exact fun same => new ⟨a, mem, same⟩
  rootFirst := pathOf?_append h.rootFirst
  parents i p c found := by
    obtain ⟨e, get, path⟩ := pathOf?_eq_some_iff.mp found
    have earlier : ∃ j < i, s.pathOf? ⟨j⟩ = some p := by
      obtain before | ⟨number, rfl⟩ := get?_of_append get
      · exact h.parents i p c (pathOf?_eq_some_iff.mpr ⟨e, before, path⟩)
      · -- The new entity comes after all others, its parent among them.
        cases number
        obtain ⟨⟨j⟩, at_⟩ := has_iff.mp (parent p c path)
        obtain ⟨d, getD, -⟩ := pathOf?_eq_some_iff.mp at_
        exact ⟨j, (List.getElem?_eq_some_iff.mp getD).1, at_⟩
    obtain ⟨j, lt, at_⟩ := earlier
    exact ⟨j, lt, pathOf?_append at_⟩
  types := by
    simp only [List.forall_mem_append, List.forall_mem_singleton]
    exact ⟨h.types, typed⟩
  keyed := by
    simp only [List.forall_mem_append, List.forall_mem_singleton]
    exact ⟨h.keyed, SelectionTree.keyed_empty types⟩

/-- An entity that is appended at a new path, below one that is there. -/
theorem grows_append (h : s.WellFormed) {location : Location} {types : TypePath}
    (source : location.source = s.source) (new : ¬ s.Has location.path)
    (typed : types.toList = s.source.rootType :: location.path.types)
    (parent : ∀ p c, location.path = FieldPath.append p c → s.Has p) :
    Grows s { s with entities := s.entities ++ [⟨⟨s.entities.length⟩, location, .empty types⟩] }
      (· = location.path) (fun _ _ _ _ => False) where
  wellFormed := h.append source new typed parent
  extended := ⟨rfl, fun _ _ => pathOf?_append⟩
  has path := by
    simp only [Has, List.mem_append, List.mem_singleton, or_and_right, exists_or, exists_eq_left,
      eq_comm (a := path)]
  holds σ path scope slot := by
    simp only [Holds, List.mem_append, List.mem_singleton, or_and_right, exists_or, exists_eq_left,
      SelectionTree.not_holds_empty, and_false]

/-- The entity of a location is there afterwards, at its path. -/
theorem get?_entityAt (h : s.WellFormed) {location : Location} {types : TypePath}
    (source : location.source = s.source) {e : Entity}
    (found : s.entityAt location types = (e, s')) :
    s'.get? e.id = some e ∧ e.location.path = location.path := by
  unfold entityAt at found
  cases held : s.atLocation? location with
  | some d =>
      rw [held] at found
      cases found
      obtain ⟨mem, path⟩ := (h.atLocation?_eq_some_iff source).mp held
      exact ⟨h.get?_id mem, path⟩
  | none =>
      rw [held] at found
      cases found
      exact ⟨List.getElem?_concat_length, rfl⟩

/-- The entity at a location, looked up or created. -/
theorem grows_entityAt (h : s.WellFormed) {location : Location} {types : TypePath}
    (source : location.source = s.source)
    (typed : types.toList = s.source.rootType :: location.path.types)
    (parent : ∀ p c, location.path = FieldPath.append p c → s.Has p)
    {e : Entity} (found : s.entityAt location types = (e, s')) :
    Grows s s' (· = location.path) (fun _ _ _ _ => False) ∧ s'.get? e.id = some e
      ∧ e.location.path = location.path := by
  refine ⟨?_, get?_entityAt h source found⟩
  unfold entityAt at found
  cases held : s.atLocation? location with
  | some d =>
      rw [held] at found
      cases found
      obtain ⟨mem, path⟩ := (h.atLocation?_eq_some_iff source).mp held
      -- The path was there already: nothing is reached that was not.
      refine ((Grows.reaching_iff ?_).mpr (Grows.refl h)).congr (fun _ => Iff.of_eq (false_or _))
        (fun _ _ _ _ => Iff.rfl)
      rintro p rfl
      exact ⟨e, mem, path⟩
  | none =>
      rw [held] at found
      cases found
      have new : ¬ s.Has location.path := by
        rintro ⟨d, mem, path⟩
        rw [(h.atLocation?_eq_some_iff source).mpr ⟨mem, path⟩] at held
        cases held
      exact grows_append h source new typed parent

/-- The entity that a field selects: the one at the path of its component. -/
theorem grows_entityForField (h : s.WellFormed) {enclosing id : EntityId} {path : FieldPath}
    {component : PathComponent} (at_ : s.pathOf? enclosing = some path)
    (found : s.entityForField enclosing component = .ok (id, s')) :
    Grows s s' (· = path.append component) (fun _ _ _ _ => False)
      ∧ s'.pathOf? id = some (path.append component) := by
  obtain ⟨e, get, pathE⟩ := pathOf?_eq_some_iff.mp at_
  have mem := List.mem_of_getElem? get
  have result : ∃ d, s.entityAt (e.location.append component)
      (e.tree.typePath.append component.type.innerName) = (d, s') ∧ d.id = id := by
    unfold entityForField at found
    rw [get_eq_ok_iff.mpr get] at found
    cases found
    exact ⟨_, rfl, rfl⟩
  obtain ⟨d, selected, rfl⟩ := result
  have source : (e.location.append component).source = s.source := h.sources e mem
  have typed : (e.tree.typePath.append component.type.innerName).toList
      = s.source.rootType :: (e.location.append component).path.types := by
    rw [TypePath.toList_append, h.types e mem, Location.path_append, FieldPath.types_append]
    rfl
  have parent : ∀ p c, (e.location.append component).path = FieldPath.append p c → s.Has p := by
    intro p c same
    obtain ⟨rfl, -⟩ := FieldPath.append_inj same
    exact ⟨e, mem, rfl⟩
  obtain ⟨grows, getS, pathS⟩ := grows_entityAt h source typed parent selected
  rw [Location.path_append, pathE] at grows pathS
  exact ⟨grows, pathOf?_eq_some_iff.mpr ⟨_, getS, pathS⟩⟩

/-! ## Changes of a tree -/

section ModifyTree

variable {id : EntityId} {change : SelectionTree → SelectionTree}

/-- A change of a tree changes neither numbers nor paths. -/
theorem map_modifyTree (s : EntityStorage) (id : EntityId) (change : SelectionTree → SelectionTree) :
    (s.modifyTree id change).entities.map (fun d => (d.id, d.location.path))
      = s.entities.map fun d => (d.id, d.location.path) :=
  Ordered.map_modify (fun d : Entity => { d with tree := change d.tree }) (fun _ => rfl) s.entities
    id.index

theorem pathOf?_modifyTree (i : EntityId) : (s.modifyTree id change).pathOf? i = s.pathOf? i := by
  have kept := congrArg (fun l => (l[i.index]?).map Prod.snd) (s.map_modifyTree id change)
  simpa [pathOf?, get?, Function.comp_def] using kept

theorem WellFormed.modifyTree (h : s.WellFormed) (id : EntityId)
    (typePath : ∀ t, (change t).typePath = t.typePath) (keyed : ∀ t, t.Keyed → (change t).Keyed) :
    (s.modifyTree id change).WellFormed where
  sources := Ordered.forall_modify h.sources fun _ held => held
  ids i d found := by
    have same := congrArg (·[i]?) (s.map_modifyTree id change)
    simp only [List.getElem?_map, found, Option.map_some] at same
    obtain ⟨d', found', eq⟩ := Option.map_eq_some_iff.mp same.symm
    rw [← h.ids i d' found']
    exact (congrArg Prod.fst eq).symm
  distinct := by
    have apart : ∀ l : List Entity, (l.map fun d => (d.id, d.location.path)).Pairwise
        (fun a b => a.2 ≠ b.2) ↔ l.Pairwise fun a b => a.location.path ≠ b.location.path :=
      fun l => List.pairwise_map
    rw [← apart, map_modifyTree, apart]
    exact h.distinct
  rootFirst := (pathOf?_modifyTree _).trans h.rootFirst
  parents i p c found := by
    rw [pathOf?_modifyTree] at found
    obtain ⟨j, lt, at_⟩ := h.parents i p c found
    exact ⟨j, lt, (pathOf?_modifyTree _).trans at_⟩
  types := Ordered.forall_modify h.types fun d held => by rw [typePath]; exact held
  keyed := Ordered.forall_modify h.keyed fun d held => keyed d.tree held

/-- A change of a tree that is additive in its reading. -/
theorem grows_modifyTree (h : s.WellFormed) {path : FieldPath} (at_ : s.pathOf? id = some path)
    (change : SelectionTree → SelectionTree) (typePath : ∀ t, (change t).typePath = t.typePath)
    (keyed : ∀ t, t.Keyed → (change t).Keyed) {added : Assignment → ScopePath → Slot → Prop}
    (additive : ∀ σ t scope slot,
      (change t).Holds σ scope slot ↔ t.Holds σ scope slot ∨ added σ scope slot) :
    Grows s (s.modifyTree id change) (fun _ => False)
      (fun σ p scope slot => p = path ∧ added σ scope slot) := by
  obtain ⟨e, get, pathE⟩ := pathOf?_eq_some_iff.mp at_
  -- Only the entity of the number changes.
  have some_ : ∀ {P : Entity → Prop} {Q : Prop},
      (P { e with tree := change e.tree } ↔ P e ∨ Q) →
      ((∃ d ∈ (s.modifyTree id change).entities, P d) ↔ (∃ d ∈ s.entities, P d) ∨ Q) :=
    fun changed => Ordered.exists_modify get changed
  refine ⟨h.modifyTree id typePath keyed, ⟨rfl, fun i p => (pathOf?_modifyTree i).trans⟩, ?_, ?_⟩
  · exact fun p => some_ (by simp)
  · intro σ p scope slot
    refine some_ ?_
    simp only [pathE, additive, eq_comm (a := p)]
    exact and_or_left

end ModifyTree

theorem grows_insertField (h : s.WellFormed) {id : EntityId} {path : FieldPath}
    (at_ : s.pathOf? id = some path) (scope : ScopePath) (f : MergedField) :
    Grows s (s.modifyTree id (·.insertField scope f)) (fun _ => False)
      (fun σ p sc slot => p = path ∧ (scope == sc) = true ∧ slot = .field f.responseKey
        ∧ f.inclusion.holds σ = true) :=
  grows_modifyTree h at_ (fun t => t.insertField scope f) (fun _ => rfl)
    (fun _ keyed => keyed.insertField scope f) (fun _ t sc slot => t.holds_insertField scope f sc slot)

theorem grows_insertFragment (h : s.WellFormed) {id : EntityId} {path : FieldPath}
    (at_ : s.pathOf? id = some path) (scope : ScopePath) (name : Name) (inclusion : Inclusion) :
    Grows s (s.modifyTree id (·.insertFragment scope name inclusion)) (fun _ => False)
      (fun σ p sc slot => p = path ∧ (scope == sc) = true ∧ slot = .fragment name
        ∧ inclusion.holds σ = true) :=
  grows_modifyTree h at_ (fun t => t.insertFragment scope name inclusion) (fun _ => rfl)
    (fun _ keyed => keyed.insertFragment scope name inclusion)
    (fun _ t sc slot => t.holds_insertFragment scope name inclusion sc slot)

theorem grows_mergeTree (h : s.WellFormed) {id : EntityId} {path : FieldPath}
    (at_ : s.pathOf? id = some path) (other : SelectionTree) (scope : ScopePath)
    (guard : Inclusion) :
    Grows s (s.modifyTree id (·.mergeTree other scope guard)) (fun _ => False)
      (fun σ p sc slot => p = path
        ∧ (∃ below, (scope.concat below == sc) = true ∧ other.Holds σ below slot)
        ∧ guard.holds σ = true) :=
  grows_modifyTree h at_ (fun t => t.mergeTree other scope guard)
    (fun t => t.typePath_mergeTree other scope guard)
    (fun _ keyed => keyed.mergeTree other scope guard)
    (fun _ t sc slot => t.holds_mergeTree other scope guard sc slot)

end EntityStorage
end SelectionGraph
