import Mathlib.Data.Set.Defs
import Mathlib.Logic.Function.Basic
import SelectionGraph.Location
import SelectionGraph.Proofs.Entity.Storage
import SelectionGraph.Proofs.Inclusion.Members

/-!
# Coherent — equality and hashing of keys

A value that serves as a key stands for something: a map of conditions, a set of such maps, a sequence
of scopes or of steps.  Its equality and its hash are each written out for themselves.  They are
coherent if values are equal exactly when they stand for the same, and then feed a hasher the same
parts.

* `Coherent`                    — equality and hashing are those of what values stand for;
* `Coherent.prod`, `option`, `list`, `of_eq` — coherence of values that are made of others;
* `Conjunction.polarity?`       — a conjunction as a map from variables;
* `Conjunction.coherent`        — its sorted conditions do not depend on the order they came in;
* `Disjunction.memberSet`       — a disjunction as a set of such maps;
* `Disjunction.coherent`        — nor do its sorted hashes, whatever hashes the members;
* `ScopePath.coherent`, `FieldPath.coherent`, `Location.coherent` — paths and locations.
-/

namespace SelectionGraph

/-! ## Coherence -/

/-- Values are equal exactly if they stand for the same, and feed a hasher the same parts then. -/
structure Coherent (α : Type) {μ : Type} [BEq α] [Hashed α] (meaning : α → μ) : Prop where
  equivalence : Equivalence fun a b : α => (a == b) = true
  beq_iff : ∀ a b : α, (a == b) = true ↔ meaning a = meaning b
  hashParts_eq : ∀ a b : α, (a == b) = true → hashParts a = hashParts b

namespace Coherent

variable {α β μ ν : Type} [BEq α] [BEq β] [Hashed α] [Hashed β] {meaning : α → μ}
  {meaning' : β → ν}

/-- Standing for the same is an equivalence. -/
theorem of_meaning (beq_iff : ∀ a b : α, (a == b) = true ↔ meaning a = meaning b)
    (hashParts_eq : ∀ a b : α, (a == b) = true → hashParts a = hashParts b) :
    Coherent α meaning where
  equivalence :=
    { refl := fun a => (beq_iff a a).mpr rfl
      symm := fun {a b} h => (beq_iff b a).mpr ((beq_iff a b).mp h).symm
      trans := fun {a b c} h h' => (beq_iff a c).mpr (((beq_iff a b).mp h).trans ((beq_iff b c).mp h')) }
  beq_iff := beq_iff
  hashParts_eq := hashParts_eq

/-- Values that are equal only if they are identical. -/
theorem of_lawful [LawfulBEq α] : Coherent α id :=
  of_meaning (fun _ _ => beq_iff_eq) fun _ _ same => congrArg hashParts (eq_of_beq same)

/-- Values that are compared and hashed as other values are. -/
theorem of_eq {f : β → α} (h : Coherent α meaning)
    (beq_eq : ∀ a b, (a == b) = (f a == f b))
    (hashed : ∀ b, hashParts b = hashParts (f b)) : Coherent β fun b => meaning (f b) := by
  refine of_meaning (fun a b => ?_) fun a b same => ?_
  · rw [beq_eq]
    exact h.beq_iff (f a) (f b)
  · rw [beq_eq] at same
    rw [hashed, hashed, h.hashParts_eq _ _ same]

theorem prod (h : Coherent α meaning) (h' : Coherent β meaning') :
    Coherent (α × β) (Prod.map meaning meaning') := by
  refine of_meaning (fun a b => ?_) fun a b same => ?_
  · change (a.1 == b.1 && a.2 == b.2) = true ↔ _
    rw [Bool.and_eq_true, h.beq_iff, h'.beq_iff, Prod.ext_iff]
    rfl
  · obtain ⟨first, second⟩ := Bool.and_eq_true_iff.mp same
    change hashParts a.1 ++ hashParts a.2 = hashParts b.1 ++ hashParts b.2
    rw [h.hashParts_eq _ _ first, h'.hashParts_eq _ _ second]

theorem option (h : Coherent α meaning) : Coherent (Option α) (Option.map meaning) := by
  refine of_meaning (fun a b => ?_) fun a b same => ?_
  · cases a <;> cases b <;> simp [h.beq_iff]
  · cases a <;> cases b
    · rfl
    · cases same
    · cases same
    · exact congrArg (HashPart.variant 1 :: ·) (h.hashParts_eq _ _ same)

theorem list (h : Coherent α meaning) : Coherent (List α) (List.map meaning) := by
  have beq_iff : ∀ l m : List α, (l == m) = true ↔ l.map meaning = m.map meaning := by
    intro l m
    induction l generalizing m with
    | nil => cases m <;> simp
    | cons a l ih => cases m <;> simp [h.beq_iff, ih]
  refine of_meaning beq_iff fun l m same => ?_
  -- Lists are compared member by member; their lengths are fed first.
  have length : l.length = m.length := by simpa using congrArg List.length ((beq_iff l m).mp same)
  have fed : l.flatMap hashParts = m.flatMap hashParts := by
    clear length
    induction l generalizing m with
    | nil => cases m with
      | nil => rfl
      | cons b m => cases same
    | cons a l ih => cases m with
      | nil => cases same
      | cons b m =>
        obtain ⟨first, later⟩ := Bool.and_eq_true_iff.mp same
        rw [List.flatMap_cons, List.flatMap_cons, h.hashParts_eq a b first, ih m later]
  change HashPart.size l.length :: _ = HashPart.size m.length :: _
  rw [length, fed]

end Coherent

/-! ## Conjunctions -/

namespace Conjunction

variable {c d : Conjunction}

/-- What a conjunction requires of a variable, if anything: that it is false, or true. -/
def polarity? (c : Conjunction) (name : Name) : Option Bool :=
  (c.conditions.find? fun x => x.name == name).map Condition.isInverted

/-- No two conditions are on one variable. -/
theorem apart (c : Conjunction) (name : Name) : c.conditions.Pairwise fun x y =>
    (x.name == name) = true → (y.name == name) = false := by
  refine (List.pairwise_map.mp c.nodup_names).imp fun {x y} differ isName => ?_
  rw [beq_eq_false_iff_ne, ← beq_iff_eq.mp isName]
  exact Ne.symm differ

theorem polarity?_eq_some_iff {name : Name} {isInverted : Bool} :
    c.polarity? name = some isInverted ↔ ⟨name, isInverted⟩ ∈ c.conditions := by
  constructor
  · intro h
    obtain ⟨x, found, rfl⟩ := Option.map_eq_some_iff.mp h
    have isName : x.name = name := by simpa using List.find?_some found
    exact isName ▸ List.mem_of_find?_eq_some found
  · intro mem
    rw [polarity?, Ordered.find?_eq_some_of_apart (c.apart name) mem (beq_self_eq_true name)]
    rfl

/-- Conjunctions are equal when they are the same map. -/
theorem beq_iff_polarity? : (c == d) = true ↔ c.polarity? = d.polarity? := by
  rw [beq_iff]
  constructor
  · intro same
    funext name
    exact Option.ext fun isInverted => by
      rw [polarity?_eq_some_iff, polarity?_eq_some_iff, same]
  · rintro same ⟨name, isInverted⟩
    rw [← polarity?_eq_some_iff, ← polarity?_eq_some_iff, same]

theorem sorted_perm (c : Conjunction) : c.sorted.Perm c.conditions :=
  List.mergeSort_perm _ _

theorem pairwise_sorted (c : Conjunction) : c.sorted.Pairwise fun x y => x.name ≤ y.name := by
  have sorted : c.sorted.Pairwise fun x y => decide (x.name ≤ y.name) = true := by
    refine List.pairwise_mergeSort (fun x y z => ?_) (fun x y => ?_) c.conditions
    · simpa using fun h h' => String.le_trans h h'
    · simpa using String.le_total x.name y.name
  exact sorted.imp of_decide_eq_true

/-- Sorting forgets the order that conditions came in: there is one on each variable only. -/
theorem sorted_congr (h : (c == d) = true) : c.sorted = d.sorted := by
  have perm : c.sorted.Perm d.sorted := c.sorted_perm.trans
    (((List.perm_ext_iff_of_nodup c.nodup d.nodup).mpr (beq_iff.mp h)).trans d.sorted_perm.symm)
  refine List.Perm.eq_of_pairwise (fun x y memX memY le ge => ?_) c.pairwise_sorted d.pairwise_sorted
    perm
  -- Conditions that are in order both ways have one name, so they are one condition of `d`.
  have memX : x ∈ d.conditions := d.sorted_perm.mem_iff.mp (perm.mem_iff.mp memX)
  have memY : y ∈ d.conditions := d.sorted_perm.mem_iff.mp memY
  exact Ordered.eq_of_apart _ (d.apart y.name) memX memY (beq_iff_eq.mpr (String.le_antisymm le ge))
    (beq_self_eq_true y.name)

theorem coherent : Coherent Conjunction polarity? :=
  .of_meaning (fun _ _ => beq_iff_polarity?) fun _ _ same =>
    congrArg (fun sorted : List Condition => hashParts sorted) (sorted_congr same)

end Conjunction

/-! ## Disjunctions -/

namespace Disjunction

variable {d e : Disjunction}

/-- The maps that the members of a disjunction are. -/
def memberSet (d : Disjunction) : Set (Name → Option Bool) :=
  {v | ∃ c ∈ d.members, c.polarity? = v}

theorem contains_iff_mem {c : Conjunction} : d.contains c = true ↔ c.polarity? ∈ d.memberSet :=
  contains_iff.trans (exists_congr fun _ => and_congr_right fun _ => Conjunction.beq_iff_polarity?)

/-- Disjunctions are equal when they have the same set of members. -/
theorem beq_iff_memberSet : (d == e) = true ↔ d.memberSet = e.memberSet := by
  rw [beq_iff]
  constructor
  · intro same
    ext v
    constructor
    · rintro ⟨c, mem, rfl⟩
      exact contains_iff_mem.mp ((same c).mp (contains_iff_mem.mpr ⟨c, mem, rfl⟩))
    · rintro ⟨c, mem, rfl⟩
      exact contains_iff_mem.mp ((same c).mpr (contains_iff_mem.mpr ⟨c, mem, rfl⟩))
  · intro same c
    rw [contains_iff_mem, contains_iff_mem, same]

/-- The members of equal disjunctions are the same maps, in some order. -/
theorem members_perm (h : (d == e) = true) :
    (d.members.map Conjunction.polarity?).Perm (e.members.map Conjunction.polarity?) := by
  have nodup : ∀ d : Disjunction, (d.members.map Conjunction.polarity?).Nodup := fun d =>
    List.pairwise_map.mpr (d.distinct.imp fun apart same =>
      Bool.eq_false_iff.mp apart (Conjunction.beq_iff_polarity?.mpr same))
  refine (List.perm_ext_iff_of_nodup (nodup d) (nodup e)).mpr fun v => ?_
  rw [List.mem_map, List.mem_map]
  exact Set.ext_iff.mp (beq_iff_memberSet.mp h) v

/-- So are their hashes, where equal members have the same one. -/
theorem hashes_perm {memberHash : Conjunction → UInt64}
    (respects : ∀ c c' : Conjunction, (c == c') = true → memberHash c = memberHash c')
    (h : (d == e) = true) : (d.members.map memberHash).Perm (e.members.map memberHash) := by
  have factors : Function.FactorsThrough memberHash Conjunction.polarity? := fun c c' same =>
    respects c c' (Conjunction.beq_iff_polarity?.mpr same)
  -- The hash of a member is a function of its map, and equal disjunctions have the same maps.
  obtain ⟨ofMap, rfl⟩ := (Function.factorsThrough_iff memberHash).mp factors
  rw [← List.map_map, ← List.map_map]
  exact (members_perm h).map ofMap

theorem sortedHashes_congr {memberHash : Conjunction → UInt64}
    (respects : ∀ c c' : Conjunction, (c == c') = true → memberHash c = memberHash c')
    (h : (d == e) = true) : d.sortedHashes memberHash = e.sortedHashes memberHash := by
  have ascending : ∀ d : Disjunction, (d.sortedHashes memberHash).Pairwise (· ≤ ·) := by
    intro d
    have sorted : (d.sortedHashes memberHash).Pairwise fun a b => decide (a ≤ b) = true := by
      refine List.pairwise_mergeSort (fun a b c => ?_) (fun a b => ?_) _
      · simpa using fun h h' => UInt64.le_trans h h'
      · simpa using UInt64.le_total a b
    exact sorted.imp of_decide_eq_true
  refine List.Perm.eq_of_pairwise (fun _ _ _ _ => UInt64.le_antisymm) (ascending d) (ascending e) ?_
  exact (List.mergeSort_perm _ _).trans ((hashes_perm respects h).trans (List.mergeSort_perm _ _).symm)

/-- Disjunctions are hashed by what `digest` makes of their members. -/
@[reducible] def hashed (digest : List HashPart → UInt64) : Hashed Disjunction :=
  ⟨hashParts digest⟩

theorem coherent (digest : List HashPart → UInt64) :
    @Coherent Disjunction _ _ (hashed digest) memberSet := by
  refine @Coherent.of_meaning _ _ _ (hashed digest) _ (fun _ _ => beq_iff_memberSet) ?_
  intro d e same
  have respects : ∀ c c' : Conjunction, (c == c') = true →
      digest (Hashed.hashParts c) = digest (Hashed.hashParts c') :=
    fun c c' same => congrArg digest (Conjunction.coherent.hashParts_eq c c' same)
  exact congrArg (fun hashes : List UInt64 => Hashed.hashParts hashes)
    (sortedHashes_congr respects same)

end Disjunction

/-! ## Paths and locations -/

/-- The type condition of a scope, and the map of its conditions. -/
def Scope.meaning (s : Scope) : Name × Option (Name → Option Bool) :=
  (s.typeCondition, s.conditions.map Conjunction.polarity?)

theorem Scope.coherent : Coherent Scope Scope.meaning :=
  (Coherent.of_lawful.prod Conjunction.coherent.option).of_eq
    (f := fun s : Scope => (s.typeCondition, s.conditions)) (fun _ _ => rfl) fun _ => rfl

/-- The scopes of a path, in their order. -/
def ScopePath.meaning (p : ScopePath) : List (Name × Option (Name → Option Bool)) :=
  p.scopes.map Scope.meaning

theorem ScopePath.coherent : Coherent ScopePath ScopePath.meaning :=
  Scope.coherent.list.of_eq (fun _ _ => rfl) fun _ => rfl

theorem FieldPath.coherent : Coherent FieldPath FieldPath.components :=
  .of_meaning (fun _ _ => beq_iff_eq.trans ⟨congrArg components, components_injective⟩)
    fun _ _ same => congrArg hashParts (eq_of_beq same)

/-- The identity of the source, and the steps from its root. -/
def Location.meaning (l : Location) : DefinitionId × List PathComponent :=
  (l.source.id, l.path.components)

theorem Location.coherent : Coherent Location Location.meaning :=
  (Coherent.of_lawful.prod FieldPath.coherent).of_eq (f := fun l : Location => (l.source.id, l.path))
    (fun _ _ => rfl) fun _ => rfl

end SelectionGraph
