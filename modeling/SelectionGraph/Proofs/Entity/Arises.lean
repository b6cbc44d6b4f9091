import SelectionGraph.Proofs.Entity.FragmentMerge
import SelectionGraph.Proofs.Session.Reachable

/-!
# Arises — the storages that selecting and merging lead to

A storage starts with its root.  Fields reach further entities, spreads merge those of fragments, and
both add to trees.  This file proves of whatever arises in this way

* `Arises.wellFormed`                  — it has one entity for each location, numbered in order;
* `WellFormed.get?_iff`                — numbers and locations name the same entities;
* `exists_mergeFragmentEntities`       — merging a fragment on an entity that is there never fails;
* `Library.arise`, `one_entity_for_each_location` — the storages of whatever a session builds arise
  so.
-/

namespace SelectionGraph
namespace EntityStorage

variable {s s' fragment : EntityStorage}

/-- The storages that the operations on them lead to, from one that holds the root only.  A fragment
that is merged has a storage which arose in the same way. -/
inductive Arises : EntityStorage → Prop
  | start (source : SourceDefinition) : Arises (start source)
  | entityForField {s s' : EntityStorage} {enclosing id : EntityId} {component : PathComponent}
      (before : Arises s) (selected : s.entityForField enclosing component = .ok (id, s')) : Arises s'
  | mergeFragment {s s' fragment : EntityStorage} {site : EntityId} {scope : ScopePath}
      {guard : Inclusion} (before : Arises s) (arisen : Arises fragment)
      (merged : s.mergeFragmentEntities site scope guard fragment = .ok s') : Arises s'
  | insertField {s : EntityStorage} (id : EntityId) (scope : ScopePath) (f : MergedField)
      (before : Arises s) : Arises (s.modifyTree id (·.insertField scope f))
  | insertFragment {s : EntityStorage} (id : EntityId) (scope : ScopePath) (name : Name)
      (inclusion : Inclusion) (before : Arises s) :
      Arises (s.modifyTree id (·.insertFragment scope name inclusion))

/-! ## One entity for each location -/

theorem Arises.wellFormed (h : s.Arises) : s.WellFormed := by
  induction h with
  | start source => exact start_wellFormed source
  | entityForField _ selected ih =>
      obtain ⟨e, get, -⟩ := bind_eq_ok.mp selected
      have at_ := pathOf?_eq_some_iff.mpr ⟨e, get_eq_ok_iff.mp get, rfl⟩
      exact (grows_entityForField ih at_ selected).1.wellFormed
  | mergeFragment _ _ merged ih ihFragment =>
      obtain ⟨e, get, -⟩ := bind_eq_ok.mp merged
      have at_ := pathOf?_eq_some_iff.mpr ⟨e, get_eq_ok_iff.mp get, rfl⟩
      exact (grows_mergeFragmentEntities ih ihFragment at_ merged).wellFormed
  | insertField id scope f _ ih =>
      exact ih.modifyTree id (fun _ => rfl) fun t keyed =>
        show (t.insertField scope f).Keyed from keyed.insertField scope f
  | insertFragment id scope name inclusion _ ih =>
      exact ih.modifyTree id (fun _ => rfl) fun t keyed =>
        show (t.insertFragment scope name inclusion).Keyed from keyed.insertFragment scope name inclusion

namespace WellFormed

variable {e : Entity}

/-- The entity of a number is the one that its own location finds. -/
theorem get?_iff (h : s.WellFormed) {id : EntityId} :
    s.get? id = some e ↔ e.id = id ∧ s.atLocation? e.location = some e := by
  constructor
  · intro get
    have mem := List.mem_of_getElem? get
    exact ⟨h.ids _ _ get, (h.atLocation?_eq_some_iff (h.sources e mem)).mpr ⟨mem, rfl⟩⟩
  · rintro ⟨rfl, found⟩
    exact h.get?_id (List.mem_of_find?_eq_some found)

/-- An entity is selected as the type of the field that leads to it. -/
theorem rootType_of_append (h : s.WellFormed) (mem : e ∈ s.entities) {p : FieldPath}
    {c : PathComponent} (path : e.location.path = p.append c) :
    e.rootType = c.type.innerName := by
  rw [h.rootType mem]
  simp [path]

/-- Locations do not repeat. -/
theorem pairwise_location (h : s.WellFormed) :
    s.entities.Pairwise fun a b => (a.location == b.location) = false := by
  refine h.distinct.imp fun {a b} apart => ?_
  rw [Bool.eq_false_iff]
  exact fun same => apart (Location.beq_iff.mp same).2

end WellFormed

/-! ## Merging does not fail -/

section Merging

variable {site : Entity} {scope : ScopePath} {guard : Inclusion}

/-- An entity of a fragment is merged into one of its own type: both are selected by the same
field. -/
theorem exists_mergeEntity (h : s.WellFormed) (hf : fragment.WellFormed)
    (source : site.location.source = s.source)
    (typed : site.tree.typePath.toList = s.source.rootType :: site.location.path.types)
    {added : Entity} (mem : added ∈ fragment.entities)
    (parent : ∀ p c, site.location.path.appendAll added.location.path.components
      = FieldPath.append p c → s.Has p) :
    ∃ s', s.mergeEntity site scope guard added = .ok s' := by
  unfold mergeEntity
  by_cases root : added.location.isRoot = true
  · rw [if_pos root]
    exact ⟨_, rfl⟩
  · rw [if_neg root]
    have types : (site.tree.typePath.appendAll added.tree.typePath.toList.tail).toList
        = s.source.rootType
          :: (site.location.appendAll added.location.path.components).path.types := by
      rw [TypePath.toList_appendAll, hf.types added mem, typed]
      exact congrArg _ (FieldPath.types_appendAll _ _).symm
    rcases found : s.entityAt (site.location.appendAll added.location.path.components)
      (site.tree.typePath.appendAll added.tree.typePath.toList.tail) with ⟨e, t⟩
    have below : (site.location.appendAll added.location.path.components).source = s.source := source
    obtain ⟨reached, get, path⟩ := grows_entityAt h below types parent found
    have notRoot : added.location.path ≠ .root := fun same => root (FieldPath.isRoot_iff.mpr same)
    obtain ⟨q, c, last⟩ := (FieldPath.eq_root_or_append added.location.path).resolve_left notRoot
    have pathE : e.location.path = (site.location.path.appendAll q.components).append c := by
      rw [path, ← FieldPath.appendAll_append, ← last]
      rfl
    have same : e.rootType = added.rootType := by
      rw [reached.wellFormed.rootType_of_append (List.mem_of_getElem? get) pathE,
        hf.rootType_of_append mem last]
    dsimp only
    rw [found, if_pos (beq_iff_eq.mpr same)]
    exact ⟨_, rfl⟩

/-- The entities of a fragment are merged one after the other. -/
theorem exists_foldlM_mergeEntity (h : s.WellFormed) (hf : fragment.WellFormed)
    {earlier later : List Entity} (all : earlier ++ later = fragment.entities)
    (source : site.location.source = s.source)
    (typed : site.tree.typePath.toList = s.source.rootType :: site.location.path.types)
    (here : s.Has site.location.path)
    (merged : ∀ d ∈ earlier, s.Has (site.location.path.appendAll d.location.path.components)) :
    ∃ s', later.foldlM (fun s added => s.mergeEntity site scope guard added) s = .ok s' := by
  induction later generalizing earlier s with
  | nil => exact ⟨s, rfl⟩
  | cons d later ih =>
      have mem : d ∈ fragment.entities := by rw [← all]; simp
      have parent := h.parent_below hf all here merged
      obtain ⟨t, first⟩ : ∃ t, s.mergeEntity site scope guard d = .ok t :=
        exists_mergeEntity h hf source typed mem parent
      have grows := grows_mergeEntity h source typed (hf.types d mem) parent first
      have sourceT := grows.extended.source
      have next : (earlier ++ [d]) ++ later = fragment.entities := by simpa using all
      obtain ⟨s', rest⟩ := ih grows.wellFormed next (source.trans sourceT.symm)
        (by rw [typed, sourceT]) ((grows.has _).mpr (Or.inl here)) (by
          simp only [List.forall_mem_append, List.forall_mem_singleton]
          exact ⟨fun d' mem' => (grows.has _).mpr (Or.inl (merged d' mem')),
            (grows.has _).mpr (Or.inr rfl)⟩)
      exact ⟨s', by rw [List.foldlM_cons]; exact bind_eq_ok.mpr ⟨t, first, rest⟩⟩

/-- A fragment can be merged wherever there is an entity to merge it on. -/
theorem exists_mergeFragmentEntities (h : s.WellFormed) (hf : fragment.WellFormed) {id : EntityId}
    (get : s.get? id = some site) :
    ∃ s', s.mergeFragmentEntities id scope guard fragment = .ok s' := by
  have mem := List.mem_of_getElem? get
  obtain ⟨s', folded⟩ : ∃ s', fragment.entities.foldlM
      (fun s added => s.mergeEntity site scope guard added) s = .ok s' :=
    exists_foldlM_mergeEntity h hf (List.nil_append _) (h.sources site mem) (h.types site mem)
      ⟨site, mem, rfl⟩ (by simp)
  exact ⟨s', bind_eq_ok.mpr ⟨site, get_eq_ok_iff.mpr get, folded⟩⟩

end Merging
end EntityStorage

/-! ## Built definitions -/

variable {view : SchemaView} {document : Document}

/-- A walk keeps a storage one that arose, if the storages of its fragments did. -/
theorem Walked.arises {built : List NamedFragment}
    (fragments : ∀ g ∈ built, g.built.entities.Arises) {info : TypeInfo}
    {direct direct' : DirectSelections} {draft draft' : Draft} {ss : List Selection}
    (h : Walked view built info direct draft ss direct' draft') :
    draft.entities.Arises → draft'.entities.Arises := by
  induction h with
  | nil => exact id
  | skipped _ _ ih => exact ih
  | leaf _ _ _ _ ih => exact fun arisen => ih (.insertField _ _ _ arisen)
  | entity _ _ selected _ _ _ ihInner ih =>
      exact fun arisen => ih (ihInner (.entityForField (.insertField _ _ _ arisen) selected))
  | flat _ _ _ _ _ _ ihInside ih => exact fun arisen => ih (ihInside arisen)
  | inline _ _ _ _ _ _ _ ihInside ih => exact fun arisen => ih (ihInside arisen)
  | spread _ _ found merged _ _ ih =>
      obtain ⟨mem, -⟩ := NamedFragment.mem_of_find? found
      exact fun arisen => ih (.insertFragment _ _ _ _
        (.mergeFragment arisen (fragments _ mem) merged))

theorem WalkedFrom.arises {built : List NamedFragment}
    (fragments : ∀ g ∈ built, g.built.entities.Arises) {source : SourceDefinition} {rootName : Name}
    {b : BuiltSelections} (h : WalkedFrom view built source rootName b) : b.entities.Arises := by
  obtain ⟨direct, draft, walked, rfl⟩ := h
  exact walked.arises fragments (.start source)

theorem Library.arise {built : List NamedFragment} (h : Library view document built) :
    ∀ g ∈ built, g.built.entities.Arises :=
  h.induction fun _ _ _ _ _ _ _ earlier _ walked => walked.arises earlier

open EntityStorage in
/-- A storage has one entity for each location, and all locations are in the storage's definition.
The entity of a number and the entity of a location are the same; the root comes first, and every
other entity after the one that encloses it; types are those of the path.  So a fragment can be
merged on every entity that is there.  Whatever a session builds has such a storage. -/
theorem one_entity_for_each_location :
    (∀ s : EntityStorage, s.Arises →
      s.WellFormed
        ∧ s.entities.Pairwise (fun a b => (a.location == b.location) = false)
        ∧ (∀ id e, s.get? id = some e ↔ e.id = id ∧ s.atLocation? e.location = some e)
        ∧ (∀ e ∈ s.entities, ∀ p c, e.location.path = FieldPath.append p c →
          e.rootType = c.type.innerName)
        ∧ ∀ fragment : EntityStorage, fragment.Arises → ∀ id site, s.get? id = some site →
          ∀ scope guard, ∃ s', s.mergeFragmentEntities id scope guard fragment = .ok s')
      ∧ ∀ (document : Document) (s : Session) (definition : ExecutableDefinition)
          (b : BuiltSelections), s.Reachable document → s.Builds definition b → b.entities.Arises := by
  constructor
  · intro s arisen
    have h := arisen.wellFormed
    exact ⟨h, h.pairwise_location, fun id e => h.get?_iff,
      fun e mem p c => h.rootType_of_append mem,
      fun fragment arisenF id site get scope guard =>
        exists_mergeFragmentEntities h arisenF.wellFormed get⟩
  · intro document s definition b reachable built
    obtain ⟨library, id, rootName, earlier, walked⟩ := built.walked reachable
    exact walked.arises earlier.arise

/-- The friend of a hero, an entity that comes from a fragment, is found by its number as by its
location, and the entities of `query { hero { ...Friendly } }` can be merged on it. -/
theorem heros_friend_has_one_entity :
    let friend := Heroes.heroField "friend" [] [.field Heroes.nameField]
    let o := Heroes.query [.field (Heroes.heroField "hero" [] [.fragmentSpread "Friendly" []])]
    let document : Document := ⟨[o], [⟨⟨"Friendly", "Hero", [], [.field friend]⟩, none⟩]⟩
    ∃ (s : Session) (b : BuiltSelections) (e : Entity), s.Reachable document
      ∧ s.Builds (.operation o.definition) b ∧ b.entities.Arises ∧ b.entities.get? ⟨2⟩ = some e
      ∧ b.entities.atLocation? e.location = some e
      ∧ ∃ merged, b.entities.mergeFragmentEntities ⟨2⟩ .root .always b.entities = .ok merged := by
  intro friend o document
  obtain ⟨s, b, reachable, -, builds, passes⟩ := Session.exists_builds document Heroes.schema o
    (fun b => (b.entities.get? ⟨2⟩).isSome) (by decide +kernel)
  obtain ⟨e, get⟩ := Option.isSome_iff_exists.mp passes
  have arisen := one_entity_for_each_location.2 document s _ b reachable builds
  obtain ⟨-, -, numbers, -, merges⟩ := one_entity_for_each_location.1 b.entities arisen
  exact ⟨s, b, e, reachable, builds, arisen, get, ((numbers ⟨2⟩ e).mp get).2,
    merges b.entities arisen ⟨2⟩ e get .root .always⟩

end SelectionGraph
