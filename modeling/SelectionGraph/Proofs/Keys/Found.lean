import SelectionGraph.Proofs.Keys.Sharing

/-!
# Found — what is kept under a key is found by every equal key

A hash map looks for an entry among those whose keys have the same hash.  Where equality and hashing
of keys are coherent it finds what was put in under any equal key, whichever hasher it uses, and it
finds what a list finds that is searched from the front.

* `Coherent.equivBEq`, `lawfulHashable` — what a hash map relies on;
* `FoundByEqualKeys`                    — hash maps with these keys find entries by equal keys;
* `Ordered.hashMap_ofList`              — a hash map finds what is found in the list of its entries;
* `SelectionTree.hashMap_scopes`, `EntityStorage.hashMap_locations` — so it is for the scopes of a tree
  and the entities of a storage;
* `keys_are_coherent`                   — all of it.
-/

namespace SelectionGraph

/-! ## Hash maps -/

section Maps

variable {κ β μ : Type} [BEq κ]

namespace Coherent

variable [Hashed κ] {meaning : κ → μ}

theorem equivBEq (h : Coherent κ meaning) : EquivBEq κ where
  rfl := h.equivalence.refl _
  symm := h.equivalence.symm
  trans := h.equivalence.trans

theorem lawfulHashable (h : Coherent κ meaning) (digest : List HashPart → UInt64) :
    @LawfulHashable κ _ (Hashed.hashable κ digest) :=
  @LawfulHashable.mk κ _ (Hashed.hashable κ digest) fun a b same =>
    congrArg digest (h.hashParts_eq a b same)

end Coherent

/-- Whatever a hasher makes of the keys, hash maps find by a key what was put in under an equal one, and
find the same by equal keys. -/
def FoundByEqualKeys (κ : Type) [BEq κ] [Hashed κ] : Prop :=
  ∀ digest : List HashPart → UInt64,
    letI := Hashed.hashable κ digest
    ∀ (β : Type) (m : Std.HashMap κ β) (a b : κ) (v : β), (a == b) = true →
      (m.insert a v)[b]? = some v ∧ m[a]? = m[b]?

theorem Coherent.foundByEqualKeys [Hashed κ] {meaning : κ → μ} (h : Coherent κ meaning) :
    FoundByEqualKeys κ := by
  intro digest β m a b v same
  let := Hashed.hashable κ digest
  have := h.equivBEq
  have := h.lawfulHashable digest
  refine ⟨?_, Std.HashMap.getElem?_congr same⟩
  rw [Std.HashMap.getElem?_insert, if_pos same]

/-- A hash map finds what is found in the list of its entries, if no key is there twice. -/
theorem Ordered.hashMap_ofList [Hashable κ] [EquivBEq κ] [LawfulHashable κ] {l : List (κ × β)}
    (apart : l.Pairwise fun a b => (a.1 == b.1) = false) (key : κ) :
    (Std.HashMap.ofList l)[key]? = (l.find? fun entry => entry.1 == key).map Prod.snd := by
  cases found : l.find? fun entry => entry.1 == key with
  | none =>
    -- An equal key in the map would be one in the list.
    refine Std.HashMap.getElem?_ofList_of_contains_eq_false ?_
    rw [← Bool.not_eq_true, List.contains_iff_exists_mem_beq]
    rintro ⟨k, mem, same⟩
    obtain ⟨entry, held, rfl⟩ := List.mem_map.mp mem
    exact List.find?_eq_none.mp found entry held (BEq.symm same)
  | some entry =>
    have same : (entry.1 == key) = true := by simpa using List.find?_some found
    exact Std.HashMap.getElem?_ofList_of_mem same apart (List.mem_of_find?_eq_some found)

end Maps

/-! ## The maps of the program -/

/-- A hash set has the members of a disjunction. -/
theorem Disjunction.hashSet_members (digest : List HashPart → UInt64) (d : Disjunction)
    (c : Conjunction) :
    letI := Hashed.hashable Conjunction digest
    (Std.HashSet.ofList d.members).contains c = d.contains c := by
  let := Hashed.hashable Conjunction digest
  have := Conjunction.coherent.lawfulHashable digest
  rw [Std.HashSet.contains_ofList, List.contains_eq_any_beq]
  simp only [Disjunction.contains, BEq.comm]

/-- A hash map has the scopes of a tree. -/
theorem SelectionTree.hashMap_scopes (digest : List HashPart → UInt64) {t : SelectionTree}
    (keyed : t.Keyed) (path : ScopePath) :
    letI := Hashed.hashable ScopePath digest
    (Std.HashMap.ofList t.scopes)[path]? = t.scope? path := by
  let := Hashed.hashable ScopePath digest
  have := ScopePath.coherent.lawfulHashable digest
  exact Ordered.hashMap_ofList keyed.scopes path

/-- A hash map has the entities of a storage, by location. -/
theorem EntityStorage.hashMap_locations (digest : List HashPart → UInt64) {s : EntityStorage}
    (wellFormed : s.WellFormed) (location : Location) :
    letI := Hashed.hashable Location digest
    (Std.HashMap.ofList (s.entities.map fun e => (e.location, e)))[location]?
      = s.atLocation? location := by
  let := Hashed.hashable Location digest
  have := Location.coherent.equivBEq
  have := Location.coherent.lawfulHashable digest
  have apart : (s.entities.map fun e => (e.location, e)).Pairwise fun a b => (a.1 == b.1) = false := by
    refine List.pairwise_map.mpr (wellFormed.distinct.imp fun differ => ?_)
    rw [Bool.eq_false_iff]
    exact fun same => differ (Location.beq_iff.mp same).2
  rw [Ordered.hashMap_ofList apart, List.find?_map, Option.map_map]
  exact Option.map_id'

/-- The equality and the hashing of keys are coherent.
- Conjunctions are equal exactly if they are the same map, disjunctions if they have the same set of
  members, scope paths and field paths if they have the same scopes or steps in a row, and locations
  if they have the same source and the same steps, where no path is the root.  So each of these
  equalities is an equivalence, and what is equal feeds a hasher the same parts; the members of a
  disjunction are hashed by themselves, with any one function.
- This is so for conjunctions at addresses and for linked paths, which are compared by addresses first,
  and for the scope paths, disjunctions and locations that are made of them.
- Hash maps find by a scope path or a location what was put in under any equal one.
- They find what trees and storages find, and hash sets have the members that disjunctions have. -/
theorem keys_are_coherent :
    (Coherent Conjunction Conjunction.polarity?
      ∧ (∀ digest, @Coherent Disjunction _ _ (Disjunction.hashed digest) Disjunction.memberSet)
      ∧ Coherent ScopePath ScopePath.meaning
      ∧ Coherent FieldPath FieldPath.components
      ∧ Coherent Location Location.meaning)
    ∧ (∀ memory : Nat → Conjunction,
      Coherent (Shared memory) (fun a => a.value.polarity?)
      ∧ Coherent (StoredScopes memory) (fun scopes => scopes.path.meaning)
      ∧ ∀ (l m : StoredMembers memory) (d e : Disjunction), d.members = l.map Shared.value →
        e.members = m.map Shared.value → l.same m = (d == e))
    ∧ (∀ memory : Nat → LinkedPath,
      Coherent (Stored memory) (fun p => p.path.components)
      ∧ Coherent (StoredLocation memory) fun l => l.location.meaning)
    ∧ (FoundByEqualKeys ScopePath ∧ FoundByEqualKeys Location)
    ∧ ∀ digest : List HashPart → UInt64,
      letI := Hashed.hashable Conjunction digest
      letI := Hashed.hashable ScopePath digest
      letI := Hashed.hashable Location digest
      (∀ (d : Disjunction) c, (Std.HashSet.ofList d.members).contains c = d.contains c)
      ∧ (∀ t : SelectionTree, t.Keyed → ∀ path,
        (Std.HashMap.ofList t.scopes)[path]? = t.scope? path)
      ∧ ∀ s : EntityStorage, s.WellFormed → ∀ location,
        (Std.HashMap.ofList (s.entities.map fun e => (e.location, e)))[location]?
          = s.atLocation? location := by
  refine ⟨⟨Conjunction.coherent, Disjunction.coherent, ScopePath.coherent, FieldPath.coherent,
    Location.coherent⟩, fun memory => ?_, fun memory => ⟨Stored.coherent, StoredLocation.coherent⟩,
    ⟨ScopePath.coherent.foundByEqualKeys, Location.coherent.foundByEqualKeys⟩, fun digest => ?_⟩
  · exact ⟨Shared.coherent Conjunction.coherent, StoredScopes.coherent,
      fun l m d e => StoredMembers.same_eq⟩
  · exact ⟨Disjunction.hashSet_members digest,
      fun t keyed => SelectionTree.hashMap_scopes digest keyed,
      fun s wellFormed => EntityStorage.hashMap_locations digest wellFormed⟩

/-- A scope path is found whose conditions came in another order, and a location with no path by one
with the root.  `hero.name` is equal to a `hero.name` that shares its `hero`, and to one that shares
nothing with it. -/
theorem keys_in_another_form_are_found :
    let onDroid : Conjunction → ScopePath := fun c => ScopePath.root.append ⟨"Droid", some c⟩
    let p := onDroid ⟨[⟨"a", false⟩, ⟨"b", true⟩], List.cons_ne_nil _ _, by decide⟩
    let q := onDroid ⟨[⟨"b", true⟩, ⟨"a", false⟩], List.cons_ne_nil _ _, by decide⟩
    let source : SourceDefinition := ⟨⟨7⟩, .fragment ⟨"F", "Query", [], []⟩⟩
    let heroAt : Nat → LinkedPath := fun address =>
      LinkedPath.root.append address ⟨"hero", .named "Character"⟩
    let nameAt : Nat → LinkedPath → LinkedPath := fun address before =>
      before.append address ⟨"name", .named "String"⟩
    let memory : Nat → LinkedPath := fun address =>
      if address = 2 then nameAt 2 (heroAt 0) else if address = 3 then nameAt 3 (heroAt 0)
      else if address = 4 then nameAt 4 (heroAt 1) else heroAt address
    hashParts p = hashParts q
      ∧ (∀ m : Std.HashMap ScopePath Nat, (m.insert p 1)[q]? = some 1)
      ∧ (∀ m : Std.HashMap Location Nat,
        (m.insert (.root source) 1)[Location.mk source (some .root)]? = some 1)
      ∧ ∃ a b c : Stored memory, a.1 = nameAt 2 (heroAt 0) ∧ b.1 = nameAt 3 (heroAt 0)
        ∧ c.1 = nameAt 4 (heroAt 1) ∧ (a == b) = true ∧ (a == c) = true
        ∧ hashParts a = hashParts c := by
  intro onDroid p q source heroAt nameAt memory
  obtain ⟨⟨-, -, scopes, -, -⟩, -, linked, ⟨byScopes, byLocation⟩, -⟩ := keys_are_coherent
  have same : (p == q) = true := by decide
  refine ⟨scopes.hashParts_eq p q same, fun m => (byScopes hash Nat m p q 1 same).1,
    fun m => (byLocation hash Nat m _ _ 1 (by decide)).1, ?_⟩
  let a : Stored memory := ⟨nameAt 2 (heroAt 0), .append (.append .root rfl) rfl⟩
  let b : Stored memory := ⟨nameAt 3 (heroAt 0), .append (.append .root rfl) rfl⟩
  let c : Stored memory := ⟨nameAt 4 (heroAt 1), .append (.append .root rfl) rfl⟩
  obtain ⟨paths, -⟩ := linked memory
  have copy : (a == c) = true := (paths.beq_iff a c).mpr rfl
  exact ⟨a, b, c, rfl, rfl, rfl, (paths.beq_iff a b).mpr rfl, copy, paths.hashParts_eq a c copy⟩

end SelectionGraph
