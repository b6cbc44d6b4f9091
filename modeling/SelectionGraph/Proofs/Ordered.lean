import SelectionGraph.Ordered

/-!
# Ordered — what an entry that is changed or appended does to a list

`Ordered.upsert` and `List.modify` change one entry of a list.  This file says how that bears on
statements about the whole list:

* `exists_upsert`, `exists_modify` — some entry has a property;
* `forall_upsert`, `forall_modify` — all entries have it;
* `mem_upsert`                     — where an entry comes from;
* `pairwise_upsert`                — any two entries are related;
* `upsert_eq_self`                 — nothing has changed;
* `map_upsert`, `prefix_upsert`    — an image of the list changes likewise, or is only appended to;
* `find?_eq_some_of_apart`, `eq_of_apart` — only one entry is wanted;
* `lookup_eq`                      — what is looked up is found by its key;
* `map_modify`                     — a view does not tell the change;
* `same_of_covered`                — two lists have related entries under the same keys.
-/

namespace SelectionGraph
namespace Ordered

variable {α : Type} {wanted : α → Bool} {change : α → α} {added : α}

/-- Only the entry that is found changes, and one is added only where none is found. -/
theorem exists_upsert {P : α → Prop} {Q : Prop} (l : List α)
    (changed : ∀ a, l.find? wanted = some a → (P (change a) ↔ P a ∨ Q))
    (new : l.find? wanted = none → (P added ↔ Q)) :
    (∃ a ∈ upsert wanted change added l, P a) ↔ (∃ a ∈ l, P a) ∨ Q := by
  induction l with
  | nil => simp [upsert, new rfl]
  | cons a rest ih =>
      by_cases h : wanted a = true
      · have here := changed a (List.find?_cons_of_pos h)
        simp only [upsert, if_pos h, List.mem_cons, exists_eq_or_imp, here]
        exact or_right_comm
      · rw [List.find?_cons_of_neg h] at changed new
        simp only [upsert, if_neg h, List.mem_cons, exists_eq_or_imp, ih changed new]
        exact or_assoc.symm

/-- An entry comes from one that changes, was there, or is added. -/
theorem mem_upsert {l : List α} {a : α} (mem : a ∈ upsert wanted change added l) :
    (∃ b ∈ l, wanted b = true ∧ a = change b) ∨ a ∈ l ∨ a = added := by
  induction l with
  | nil => exact Or.inr (Or.inr (List.mem_singleton.mp mem))
  | cons b rest ih =>
      rw [upsert] at mem
      split at mem
      · rename_i h
        rcases List.mem_cons.mp mem with rfl | later
        · exact Or.inl ⟨b, List.mem_cons_self, h, rfl⟩
        · exact Or.inr (Or.inl (List.mem_cons_of_mem _ later))
      · rcases List.mem_cons.mp mem with rfl | later
        · exact Or.inr (Or.inl List.mem_cons_self)
        · rcases ih later with ⟨c, memC, h, rfl⟩ | held | rfl
          · exact Or.inl ⟨c, List.mem_cons_of_mem _ memC, h, rfl⟩
          · exact Or.inr (Or.inl (List.mem_cons_of_mem _ held))
          · exact Or.inr (Or.inr rfl)

theorem forall_upsert {P : α → Prop} {l : List α} (held : ∀ a ∈ l, P a)
    (changed : ∀ a ∈ l, wanted a = true → P (change a)) (new : P added) :
    ∀ a ∈ upsert wanted change added l, P a := by
  induction l with
  | nil => simpa [upsert] using new
  | cons a rest ih =>
      simp only [List.forall_mem_cons] at held changed
      rw [upsert]
      split
      · rename_i h
        exact List.forall_mem_cons.mpr ⟨changed.1 h, held.2⟩
      · exact List.forall_mem_cons.mpr ⟨held.1, ih held.2 changed.2⟩

theorem pairwise_upsert {R : α → α → Prop} {l : List α} (pairwise : l.Pairwise R)
    (left : ∀ a b, wanted a = true → R a b → R (change a) b)
    (right : ∀ a b, wanted b = true → R a b → R a (change b))
    (new : ∀ a, wanted a = false → R a added) : (upsert wanted change added l).Pairwise R := by
  induction l with
  | nil => exact List.pairwise_singleton _ _
  | cons a rest ih =>
      obtain ⟨first, later⟩ := List.pairwise_cons.mp pairwise
      rw [upsert]
      split
      · rename_i h
        exact List.pairwise_cons.mpr ⟨fun b mem => left a b h (first b mem), later⟩
      · rename_i h
        refine List.pairwise_cons.mpr ⟨?_, ih later⟩
        exact forall_upsert first (fun b mem h => right a b h (first b mem)) (new a (by simpa using h))

/-- An entry that a change leaves as it is, is not changed. -/
theorem upsert_eq_self {a : α} {l : List α} (found : l.find? wanted = some a)
    (same : change a = a) : upsert wanted change added l = l := by
  induction l with
  | nil => cases found
  | cons b rest ih =>
      rw [List.find?_cons] at found
      rw [upsert]
      split at found
      · rename_i h
        cases found
        rw [if_pos h, same]
      · rename_i h
        rw [if_neg (Bool.eq_false_iff.mp h), ih found]

/-- An image of a list changes as the list does. -/
theorem map_upsert {β : Type} {f : α → β} {wanted' : β → Bool} {change' : β → β}
    (same : ∀ a, wanted' (f a) = wanted a) (changes : ∀ a, change' (f a) = f (change a))
    (l : List α) :
    upsert wanted' change' (f added) (l.map f) = (upsert wanted change added l).map f := by
  induction l with
  | nil => rfl
  | cons a rest ih =>
      rw [List.map_cons, upsert, upsert, same]
      split
      · rw [List.map_cons, changes]
      · rw [List.map_cons, ih]

/-- An image of a list that does not tell the change is only appended to. -/
theorem prefix_upsert {β : Type} {view : α → β} (keeps : ∀ a, view (change a) = view a) (l : List α) :
    l.map view <+: (upsert wanted change added l).map view := by
  induction l with
  | nil => exact List.nil_prefix
  | cons a rest ih =>
      rw [upsert]
      split
      · refine ⟨[], ?_⟩
        rw [List.append_nil, List.map_cons, List.map_cons, keeps]
      · exact (List.prefix_cons_inj (view a)).mpr ih

/-- What is looked up is the value of the first entry of the key. -/
theorem lookup_eq {κ β : Type} [BEq κ] [PartialEquivBEq κ] (l : List (κ × β)) (key : κ) :
    l.lookup key = (l.find? fun entry => entry.1 == key).map Prod.snd := by
  induction l with
  | nil => rfl
  | cons entry rest ih =>
      rw [List.lookup_cons, List.find?_cons, ih, BEq.comm]
      cases entry.1 == key <;> rfl

/-- Where at most one entry is wanted, it is the one that is found. -/
theorem find?_eq_some_of_apart {l : List α} {a : α}
    (apart : l.Pairwise fun a b => wanted a = true → wanted b = false) (mem : a ∈ l)
    (h : wanted a = true) : l.find? wanted = some a := by
  induction l with
  | nil => cases mem
  | cons b rest ih =>
      obtain ⟨first, later⟩ := List.pairwise_cons.mp apart
      rcases List.mem_cons.mp mem with rfl | mem
      · exact List.find?_cons_of_pos h
      · by_cases hb : wanted b = true
        · rw [first a mem hb] at h
          cases h
        · rw [List.find?_cons_of_neg hb, ih later mem]

theorem eq_of_apart (wanted : α → Bool) {l : List α} {a b : α}
    (apart : l.Pairwise fun a b => wanted a = true → wanted b = false) (memA : a ∈ l) (memB : b ∈ l)
    (ha : wanted a = true) (hb : wanted b = true) : a = b :=
  Option.some.inj ((find?_eq_some_of_apart apart memA ha).symm.trans
    (find?_eq_some_of_apart apart memB hb))

theorem exists_modify {P : α → Prop} {Q : Prop} {l : List α} {i : Nat} {a : α} {change : α → α}
    (found : l[i]? = some a) (changed : P (change a) ↔ P a ∨ Q) :
    (∃ b ∈ l.modify i change, P b) ↔ (∃ b ∈ l, P b) ∨ Q := by
  induction l generalizing i with
  | nil => simp at found
  | cons b rest ih =>
      cases i with
      | zero =>
          obtain rfl : b = a := by simpa using found
          simp only [List.modify_zero_cons, List.mem_cons, exists_eq_or_imp, changed]
          exact or_right_comm
      | succ i =>
          have := ih (by simpa using found)
          simp only [List.modify_succ_cons, List.mem_cons, exists_eq_or_imp, this]
          exact or_assoc.symm

theorem forall_modify {P : α → Prop} {l : List α} {i : Nat} {change : α → α}
    (held : ∀ a ∈ l, P a) (changed : ∀ a, P a → P (change a)) : ∀ a ∈ l.modify i change, P a := by
  intro a mem
  obtain ⟨j, found⟩ := List.mem_iff_getElem?.mp mem
  rw [List.getElem?_modify, Option.map_eq_map, Option.map_eq_some_iff] at found
  obtain ⟨b, before, rfl⟩ := found
  have heldB := held b (List.mem_of_getElem? before)
  split
  · exact changed b heldB
  · exact heldB

theorem map_modify {β : Type} {view : α → β} (change : α → α)
    (keeps : ∀ a, view (change a) = view a) (l : List α) (i : Nat) :
    (l.modify i change).map view = l.map view := by
  induction l generalizing i with
  | nil => simp
  | cons a l ih => cases i <;> simp [keeps, ih]

section Same

variable {κ : Type} [BEq κ] [EquivBEq κ] {key : α → κ} {xs ys : List α}

/-- A list without two entries of one key is no longer than one that has all its keys. -/
theorem length_le_of_covered (apart : xs.Pairwise fun a b => (key a == key b) = false)
    (covered : ∀ x ∈ xs, ∃ y ∈ ys, (key y == key x) = true) : xs.length ≤ ys.length := by
  induction xs generalizing ys with
  | nil => exact Nat.zero_le _
  | cons x xs ih =>
      obtain ⟨first, rest⟩ := List.pairwise_cons.mp apart
      obtain ⟨y, memY, same⟩ := covered x List.mem_cons_self
      obtain ⟨before, after, rfl⟩ := List.append_of_mem memY
      -- The others have other keys than `y`, which has that of `x`.
      have others : ∀ x' ∈ xs, ∃ y' ∈ before ++ after, (key y' == key x') = true := by
        intro x' memX'
        obtain ⟨y', memY', same'⟩ := covered x' (List.mem_cons_of_mem _ memX')
        refine ⟨y', ?_, same'⟩
        rcases List.mem_append.mp memY' with left | right
        · exact List.mem_append_left _ left
        · rcases List.mem_cons.mp right with rfl | right
          · have both := BEq.trans (BEq.symm same) same'
            rw [first x' memX'] at both
            cases both
          · exact List.mem_append_right _ right
      have shorter := ih rest others
      simp only [List.length_append, List.length_cons] at shorter ⊢
      omega

/-- Lists without two entries of one key, each of which has a related entry for every entry of the
other, have the same entries. -/
theorem same_of_covered {related : α → α → Bool}
    (apartX : xs.Pairwise fun a b => (key a == key b) = false)
    (apartY : ys.Pairwise fun a b => (key a == key b) = false)
    (covered : ∀ x ∈ xs, ∃ y ∈ ys, (key y == key x) = true ∧ related x y = true)
    (back : ∀ y ∈ ys, ∃ x ∈ xs, (key x == key y) = true) : same key related xs ys = true := by
  rw [same, Bool.and_eq_true, beq_iff_eq, List.all_eq_true]
  refine ⟨Nat.le_antisymm (length_le_of_covered apartX fun x mem => ?_)
    (length_le_of_covered apartY back), fun x mem => ?_⟩
  · obtain ⟨y, memY, keyed, -⟩ := covered x mem
    exact ⟨y, memY, keyed⟩
  · obtain ⟨y, memY, keyed, held⟩ := covered x mem
    have found : ys.find? (fun y => key y == key x) = some y := by
      refine find?_eq_some_of_apart (apartY.imp fun {a b} apart => fun atA => ?_) memY keyed
      rw [Bool.eq_false_iff] at apart ⊢
      exact fun atB => apart (BEq.trans atA (BEq.symm atB))
    rw [found, Option.any_some]
    exact held

end Same

end Ordered
end SelectionGraph
