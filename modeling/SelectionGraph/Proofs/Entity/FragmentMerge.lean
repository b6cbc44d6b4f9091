import SelectionGraph.Proofs.Entity.Storage

/-!
# FragmentMerge — a fragment's entities as reached from one of its spreads

Merging the storage of a fragment reaches the fragment's paths below the site, and adds its entries:
those of the fragment's root below the scope of the spread and under its guard, the others as they
are.

* `innerScope`, `innerGuard`   — what applies at a path of the fragment;
* `mergeFragmentEntities_induction` — one entity of the fragment after the other;
* `grows_mergeFragmentEntities` — what merging adds.
-/

namespace SelectionGraph
namespace EntityStorage

variable {s s' : EntityStorage}

/-- The scope that a fragment's selections at a path are merged below. -/
def innerScope (scope : ScopePath) (path : FieldPath) : ScopePath :=
  if path.isRoot then scope else .root

/-- The guard that a fragment's selections at a path are merged under. -/
def innerGuard (guard : Inclusion) (path : FieldPath) : Inclusion :=
  if path.isRoot then guard else .always

theorem WellFormed.has_parent (h : s.WellFormed) {p : FieldPath} {c : PathComponent}
    (held : s.Has (p.append c)) : s.Has p := by
  obtain ⟨⟨i⟩, at_⟩ := has_iff.mp held
  obtain ⟨j, -, at'⟩ := h.parents i p c at_
  exact has_iff.mpr ⟨⟨j⟩, at'⟩

/-- The parent of an entity comes before it. -/
theorem WellFormed.parent_earlier (h : s.WellFormed) {earlier later : List Entity} {d : Entity}
    (all : earlier ++ d :: later = s.entities) {q : FieldPath} {c : PathComponent}
    (path : d.location.path = q.append c) : ∃ d' ∈ earlier, d'.location.path = q := by
  have number : s.pathOf? ⟨earlier.length⟩ = some (q.append c) := by
    refine pathOf?_eq_some_iff.mpr ⟨d, ?_, path⟩
    rw [get?, ← all]
    simp
  obtain ⟨j, lt, at_⟩ := h.parents _ _ _ number
  obtain ⟨d', get, rfl⟩ := pathOf?_eq_some_iff.mp at_
  rw [get?, ← all, List.getElem?_append_left lt] at get
  exact ⟨d', List.mem_of_getElem? get, rfl⟩

/-- Below the site an entity of the fragment has its parent, if those before it are merged. -/
theorem WellFormed.parent_below (h : s.WellFormed) {fragment : EntityStorage}
    (hf : fragment.WellFormed) {earlier later : List Entity} {d : Entity}
    (all : earlier ++ d :: later = fragment.entities) {path : FieldPath} (here : s.Has path)
    (merged : ∀ d' ∈ earlier, s.Has (path.appendAll d'.location.path.components)) :
    ∀ p c, path.appendAll d.location.path.components = FieldPath.append p c → s.Has p := by
  intro p c same
  -- The fragment's root is merged into the site, which is there; any other entity comes after its
  -- parent in the fragment.
  rcases FieldPath.eq_root_or_append d.location.path with root | ⟨q, c', eq⟩
  · rw [root, FieldPath.appendAll_root] at same
    exact h.has_parent (same ▸ here)
  · rw [eq, FieldPath.appendAll_append] at same
    obtain ⟨rfl, -⟩ := FieldPath.append_inj same
    obtain ⟨d', mem', rfl⟩ := hf.parent_earlier all eq
    exact merged d' mem'

section OneEntity

variable {site added : Entity} {scope : ScopePath} {guard : Inclusion} {fragmentRoot : Name}

/-- Whether the entity is the fragment's root or not, an entity is looked up below the site and the
tree merged into its tree. -/
theorem mergeEntity_spec
    (typedAdded : added.tree.typePath.toList = fragmentRoot :: added.location.path.types)
    (merged : s.mergeEntity site scope guard added = .ok s') :
    ∃ location types e t, location.source = site.location.source
      ∧ location.path = site.location.path.appendAll added.location.path.components
      ∧ types.toList = site.tree.typePath.toList ++ added.location.path.types
      ∧ s.entityAt location types = (e, t)
      ∧ s' = t.modifyTree e.id fun tree => tree.mergeTree added.tree
          (innerScope scope added.location.path) (innerGuard guard added.location.path) := by
  unfold mergeEntity at merged
  unfold innerScope innerGuard
  by_cases root : added.location.isRoot = true
  · have isRoot : added.location.path.isRoot = true := root
    rw [if_pos root] at merged
    cases merged
    rw [FieldPath.isRoot_iff.mp isRoot]
    exact ⟨_, _, _, _, rfl, (FieldPath.appendAll_root _).symm, by simp, rfl, rfl⟩
  · have isRoot : ¬ added.location.path.isRoot = true := root
    rw [if_neg root] at merged
    rw [if_neg isRoot, if_neg isRoot]
    dsimp only at merged
    split at merged
    · cases merged
      refine ⟨site.location.appendAll added.location.path.components,
        site.tree.typePath.appendAll added.tree.typePath.toList.tail, _, _, rfl, rfl, ?_, rfl, rfl⟩
      rw [TypePath.toList_appendAll, typedAdded, List.tail_cons]
    · cases merged

/-- One entity of a fragment, below the site. -/
theorem grows_mergeEntity (h : s.WellFormed) (source : site.location.source = s.source)
    (typed : site.tree.typePath.toList = s.source.rootType :: site.location.path.types)
    (typedAdded : added.tree.typePath.toList = fragmentRoot :: added.location.path.types)
    (parent : ∀ p c, site.location.path.appendAll added.location.path.components
      = FieldPath.append p c → s.Has p)
    (merged : s.mergeEntity site scope guard added = .ok s') :
    Grows s s' (· = site.location.path.appendAll added.location.path.components)
      (fun σ p sc slot => p = site.location.path.appendAll added.location.path.components
        ∧ (∃ below, ((innerScope scope added.location.path).concat below == sc) = true
          ∧ added.tree.Holds σ below slot)
        ∧ (innerGuard guard added.location.path).holds σ = true) := by
  obtain ⟨location, types, e, t, sourceL, pathL, typesL, found, rfl⟩ :=
    mergeEntity_spec typedAdded merged
  obtain ⟨reached, get, pathE⟩ := grows_entityAt h (sourceL.trans source)
    (by rw [typesL, typed, pathL, FieldPath.types_appendAll]; rfl)
    (fun p c same => parent p c (pathL.symm.trans same)) found
  have at_ : t.pathOf? e.id = some (site.location.path.appendAll added.location.path.components) :=
    pathOf?_eq_some_iff.mpr ⟨e, get, pathE.trans pathL⟩
  have all := reached.trans (grows_mergeTree reached.wellFormed at_ added.tree
    (innerScope scope added.location.path) (innerGuard guard added.location.path))
  rw [pathL] at all
  exact all.congr (fun p => Iff.of_eq (or_false _)) (fun _ _ _ _ => Iff.of_eq (false_or _))

end OneEntity

/-- What the fragment's entities of a list add. -/
def addedBelow (path : FieldPath) (scope : ScopePath) (guard : Inclusion) (entities : List Entity)
    (σ : Assignment) (p : FieldPath) (sc : ScopePath) (slot : Slot) : Prop :=
  ∃ d ∈ entities, p = path.appendAll d.location.path.components
    ∧ (∃ below, ((innerScope scope d.location.path).concat below == sc) = true
      ∧ d.tree.Holds σ below slot)
    ∧ (innerGuard guard d.location.path).holds σ = true

/-- The entities of a storage add what it holds. -/
theorem addedBelow_iff {fragment : EntityStorage} {path p : FieldPath} {scope sc : ScopePath}
    {guard : Inclusion} {σ : Assignment} {slot : Slot} :
    addedBelow path scope guard fragment.entities σ p sc slot
      ↔ ∃ q, p = path.appendAll q.components
        ∧ (∃ below, ((innerScope scope q).concat below == sc) = true
          ∧ fragment.Holds σ q below slot)
        ∧ (innerGuard guard q).holds σ = true := by
  constructor
  · rintro ⟨d, mem, eq, ⟨below, at', holds⟩, allowed⟩
    exact ⟨_, eq, ⟨below, at', d, mem, rfl, holds⟩, allowed⟩
  · rintro ⟨q, eq, ⟨below, at', d, mem, rfl, holds⟩, allowed⟩
    exact ⟨d, mem, eq, ⟨below, at', holds⟩, allowed⟩

/-- What holds at the start and is kept by merging one entity after another, holds after all of a
fragment's.  Parents come first in the fragment's storage, so each entity finds its parent merged
already, and adds what it adds to a well-formed storage. -/
theorem foldlM_mergeEntity_induction (h : s.WellFormed) {fragment : EntityStorage}
    (hf : fragment.WellFormed) {site : Entity} {scope : ScopePath} {guard : Inclusion}
    {P : List Entity → EntityStorage → Prop}
    (step : ∀ earlier d t t', d ∈ fragment.entities → t.WellFormed →
      site.location.source = t.source → t.mergeEntity site scope guard d = .ok t' →
      Grows t t' (· = site.location.path.appendAll d.location.path.components)
        (addedBelow site.location.path scope guard [d]) → P earlier t → P (earlier ++ [d]) t')
    {earlier later : List Entity} (all : earlier ++ later = fragment.entities)
    (source : site.location.source = s.source)
    (typed : site.tree.typePath.toList = s.source.rootType :: site.location.path.types)
    (here : s.Has site.location.path)
    (merged : ∀ d ∈ earlier, s.Has (site.location.path.appendAll d.location.path.components))
    (start : P earlier s)
    (folded : later.foldlM (fun s added => s.mergeEntity site scope guard added) s = .ok s') :
    P fragment.entities s' := by
  induction later generalizing earlier s with
  | nil =>
      cases folded
      rw [← all, List.append_nil]
      exact start
  | cons d later ih =>
      rw [List.foldlM_cons, bind_eq_ok] at folded
      obtain ⟨t, first, folded⟩ := folded
      have mem : d ∈ fragment.entities := by rw [← all]; simp
      have grows := grows_mergeEntity h source typed (hf.types d mem)
        (h.parent_below hf all here merged) first
      have grows : Grows s t (· = site.location.path.appendAll d.location.path.components)
          (addedBelow site.location.path scope guard [d]) :=
        grows.congr (fun _ => Iff.rfl) (by simp [addedBelow])
      have sourceT := grows.extended.source
      have next : (earlier ++ [d]) ++ later = fragment.entities := by simpa using all
      refine ih grows.wellFormed next (source.trans sourceT.symm) (by rw [typed, sourceT])
        ((grows.has _).mpr (Or.inl here)) ?_ (step earlier d s t mem h source first grows start) folded
      simp only [List.forall_mem_append, List.forall_mem_singleton]
      exact ⟨fun d' mem' => (grows.has _).mpr (Or.inl (merged d' mem')),
        (grows.has _).mpr (Or.inr rfl)⟩

/-- The same, for merging a whole storage on a site. -/
theorem mergeFragmentEntities_induction (h : s.WellFormed) {fragment : EntityStorage}
    (hf : fragment.WellFormed) {id : EntityId} {site : Entity} {scope : ScopePath}
    {guard : Inclusion} (get : s.get? id = some site) {P : List Entity → EntityStorage → Prop}
    (step : ∀ earlier d t t', d ∈ fragment.entities → t.WellFormed →
      site.location.source = t.source → t.mergeEntity site scope guard d = .ok t' →
      Grows t t' (· = site.location.path.appendAll d.location.path.components)
        (addedBelow site.location.path scope guard [d]) → P earlier t → P (earlier ++ [d]) t')
    (start : P [] s) (merged : s.mergeFragmentEntities id scope guard fragment = .ok s') :
    P fragment.entities s' := by
  have mem := List.mem_of_getElem? get
  have folded : fragment.entities.foldlM (fun s added => s.mergeEntity site scope guard added) s
      = .ok s' := by
    unfold mergeFragmentEntities at merged
    rw [get_eq_ok_iff.mpr get] at merged
    exact merged
  exact foldlM_mergeEntity_induction h hf step (List.nil_append _) (h.sources site mem)
    (h.types site mem) ⟨site, mem, rfl⟩ (by simp) start folded

/-- Merging a fragment's storage reaches the fragment's paths and adds the fragment's entries, below
the site. -/
theorem grows_mergeFragmentEntities (h : s.WellFormed) {fragment : EntityStorage}
    (hf : fragment.WellFormed) {site : EntityId} {path : FieldPath} {scope : ScopePath}
    {guard : Inclusion} (at_ : s.pathOf? site = some path)
    (merged : s.mergeFragmentEntities site scope guard fragment = .ok s') :
    Grows s s' (fun p => ∃ q, fragment.Has q ∧ p = path.appendAll q.components)
      (fun σ p sc slot => ∃ q, p = path.appendAll q.components
        ∧ (∃ below, ((innerScope scope q).concat below == sc) = true
          ∧ fragment.Holds σ q below slot)
        ∧ (innerGuard guard q).holds σ = true) := by
  obtain ⟨e, get, rfl⟩ := pathOf?_eq_some_iff.mp at_
  have grows : Grows s s'
      (fun p => ∃ d ∈ fragment.entities, p = e.location.path.appendAll d.location.path.components)
      (addedBelow e.location.path scope guard fragment.entities) := by
    refine mergeFragmentEntities_induction h hf get (P := fun earlier t => Grows s t
      (fun p => ∃ d ∈ earlier, p = e.location.path.appendAll d.location.path.components)
      (addedBelow e.location.path scope guard earlier)) ?_ ?_ merged
    · intro earlier d t t' _ _ _ _ one before
      exact (before.trans one).congr (by simp [or_and_right, exists_or])
        (by simp [addedBelow, or_and_right, exists_or])
    · exact (Grows.refl h).congr (by simp) (by simp [addedBelow])
  refine grows.congr ?_ ?_
  · intro p
    constructor
    · rintro ⟨d, memD, eq⟩
      exact ⟨_, ⟨d, memD, rfl⟩, eq⟩
    · rintro ⟨q, ⟨d, memD, rfl⟩, eq⟩
      exact ⟨d, memD, eq⟩
  · exact fun σ p sc slot => addedBelow_iff

end EntityStorage
end SelectionGraph
