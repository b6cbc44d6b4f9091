import Mathlib.Data.List.Flatten
import Mathlib.Data.List.Induction
import Mathlib.Data.List.Lex
import Mathlib.Data.List.Nodup

/-!
# Addressed — lists in the order of addresses

What stands in a tree has an address: which child is taken at each turn from the root.  Addresses are
compared from the left, a shorter one before those that go on from it, so that their order is the one
in which the tree is passed through depth first.

* `Addressed`                    — a list has what stands at addresses, in the order of these;
* `Addressed.under`, `.append`, `.flatMap` — lists of a child, of two parts and of all children;
* `Addressed.find?_eq_some_iff`  — the first member of some kind stands at the least address;
* `Addressed.pairwise_eraseDups` — without repetitions, members are in the order of their first
  addresses.
-/

namespace SelectionGraph

/-! ## First occurrences -/

section FirstOccurrences

variable {α : Type} [BEq α] [LawfulBEq α]

theorem eraseDups_concat (l : List α) (a : α) :
    (l ++ [a]).eraseDups = if a ∈ l then l.eraseDups else l.eraseDups ++ [a] := by
  rw [List.eraseDups_append]
  split <;> simp_all [List.removeAll, List.eraseDups_cons]

/-- Of what comes later in a list, only the first occurrences matter. -/
theorem eraseDups_append_eraseDups (l m : List α) :
    (l ++ m.eraseDups).eraseDups = (l ++ m).eraseDups := by
  induction m using List.reverseRecOn with
  | nil => rfl
  | append_singleton m a ih =>
      rw [eraseDups_concat, ← List.append_assoc, eraseDups_concat (l ++ m)]
      -- An element that came before is dropped on both sides.
      by_cases known : a ∈ m
      · rw [if_pos known, if_pos (List.mem_append_right l known), ih]
      · rw [if_neg known, ← List.append_assoc, eraseDups_concat, ih]
        simp [known]

theorem nodup_eraseDups (l : List α) : l.eraseDups.Nodup := by
  induction l using List.reverseRecOn with
  | nil => exact List.nodup_nil
  | append_singleton l a ih =>
      rw [eraseDups_concat]
      split
      · exact ih
      · rename_i new
        refine List.nodup_append.mpr ⟨ih, List.nodup_singleton a, ?_⟩
        intro b old c last same
        rw [List.mem_singleton] at last
        exact new (last ▸ same ▸ List.mem_eraseDups.mp old)

/-- Of two members of a list without repetitions, the second does not occur before the first does. -/
theorem pairwise_first_eraseDups (l : List α) : l.eraseDups.Pairwise fun a b =>
    ∃ before after, l = before ++ a :: after ∧ b ∉ before ∧ b ≠ a := by
  induction l using List.reverseRecOn with
  | nil => exact .nil
  | append_singleton l c ih =>
      have longer := ih.imp (S := fun a b =>
          ∃ before after, l ++ [c] = before ++ a :: after ∧ b ∉ before ∧ b ≠ a) <| by
        rintro a b ⟨before, after, rfl, apart⟩
        exact ⟨before, after ++ [c], by simp, apart⟩
      rw [eraseDups_concat]
      split
      · exact longer
      · rename_i new
        refine List.pairwise_append.mpr ⟨longer, List.pairwise_singleton _ _, fun a mem b last => ?_⟩
        obtain rfl := List.mem_singleton.mp last
        obtain ⟨before, after, rfl⟩ := List.append_of_mem (List.mem_eraseDups.mp mem)
        refine ⟨before, after ++ [b], by simp, fun known => new (by simp [known]), ?_⟩
        rintro rfl
        exact new (by simp)

/-- The first member with a property is the same without repetitions. -/
theorem find?_eraseDups (l : List α) (P : α → Bool) : l.eraseDups.find? P = l.find? P := by
  induction l using List.reverseRecOn with
  | nil => rfl
  | append_singleton l a ih =>
      rw [eraseDups_concat, List.find?_append]
      split
      · rename_i known
        rw [ih]
        cases found : l.find? P with
        | some b => rfl
        | none =>
            have lacks := List.find?_eq_none.mp found a known
            simp [lacks]
      · rw [List.find?_append, ih]

end FirstOccurrences

/-! ## Lists and addresses -/

/-- A list has exactly what stands at addresses, one member for each address, in their order. -/
def Addressed {α : Type} (at_ : List Nat → α → Prop) (l : List α) : Prop :=
  ∃ sites : List (List Nat × α), sites.map Prod.snd = l ∧ sites.Pairwise (fun x y => x.1 < y.1)
    ∧ ∀ path a, (path, a) ∈ sites ↔ at_ path a

namespace Addressed

variable {α β : Type} {at_ at₁ at₂ : List Nat → α → Prop} {l l₁ l₂ : List α}

/-! ## Lists of trees -/

theorem congr (h : Addressed at₁ l) (same : ∀ path a, at₁ path a ↔ at₂ path a) :
    Addressed at₂ l := by
  obtain ⟨sites, list, sorted, stands⟩ := h
  exact ⟨sites, list, sorted, fun path a => (stands path a).trans (same path a)⟩

theorem nil (none : ∀ path a, ¬ at_ path a) : Addressed at_ [] :=
  ⟨[], rfl, .nil, fun path a => by simp [none path a]⟩

/-- What stands at the root alone. -/
theorem root (a : α) : Addressed (fun path b => path = [] ∧ b = a) [a] :=
  ⟨[([], a)], rfl, List.pairwise_singleton _ _, fun path b => by simp⟩

/-- Two parts, of which the one has all its addresses before those of the other. -/
theorem append (h₁ : Addressed at₁ l₁) (h₂ : Addressed at₂ l₂)
    (before : ∀ path a path' a', at₁ path a → at₂ path' a' → path < path') :
    Addressed (fun path a => at₁ path a ∨ at₂ path a) (l₁ ++ l₂) := by
  obtain ⟨sites₁, rfl, sorted₁, stands₁⟩ := h₁
  obtain ⟨sites₂, rfl, sorted₂, stands₂⟩ := h₂
  refine ⟨sites₁ ++ sites₂, List.map_append, List.pairwise_append.mpr ⟨sorted₁, sorted₂, ?_⟩, ?_⟩
  · rintro ⟨path, a⟩ mem ⟨path', a'⟩ mem'
    exact before path a path' a' ((stands₁ path a).mp mem) ((stands₂ path' a').mp mem')
  · intro path a
    rw [List.mem_append, stands₁, stands₂]

/-- What stands at the root comes before all that stands below. -/
theorem cons (a : α) (h : Addressed at_ l) (below : ∀ path b, at_ path b → path ≠ []) :
    Addressed (fun path b => (path = [] ∧ b = a) ∨ at_ path b) (a :: l) := by
  refine (root a).append h ?_
  rintro _ _ path b ⟨rfl, -⟩ stands
  obtain ⟨i, rest, rfl⟩ := List.exists_cons_of_ne_nil (below path b stands)
  exact List.nil_lt_cons i rest

/-- The tree of a child. -/
theorem under (i : Nat) (h : Addressed at_ l) :
    Addressed (fun path a => ∃ rest, path = i :: rest ∧ at_ rest a) l := by
  obtain ⟨sites, rfl, sorted, stands⟩ := h
  refine ⟨sites.map fun x => (i :: x.1, x.2), by simp, ?_, ?_⟩
  · exact List.pairwise_map.mpr (sorted.imp fun less => List.cons_lt_cons_self.mpr less)
  · intro path a
    simp only [List.mem_map, Prod.mk.injEq, Prod.exists, stands]
    constructor
    · rintro ⟨rest, _, here, rfl, rfl⟩
      exact ⟨rest, rfl, here⟩
    · rintro ⟨rest, rfl, here⟩
      exact ⟨rest, a, here, rfl, rfl⟩

/-- The trees of all children, which are counted from a number. -/
theorem flatMap_from {f : β → List α} {stands : β → List Nat → α → Prop} (bs : List β) :
    ∀ k, (∀ b ∈ bs, Addressed (stands b) (f b)) → Addressed
      (fun path a => ∃ i b rest, bs[i]? = some b ∧ path = (k + i) :: rest ∧ stands b rest a)
      (bs.flatMap f) := by
  induction bs with
  | nil => exact fun k _ => nil (by simp)
  | cons b bs ih =>
      intro k each
      obtain ⟨first, others⟩ := List.forall_mem_cons.mp each
      rw [List.flatMap_cons]
      -- The first child has the number `k`, and the others are counted from the next one.
      refine ((under k first).append (ih (k + 1) others) ?_).congr fun path a => ?_
      · rintro _ _ _ _ ⟨rest, rfl, -⟩ ⟨i, -, rest', -, rfl, -⟩
        exact List.cons_lt_cons_iff.mpr (Or.inl (by omega))
      · constructor
        · rintro (⟨rest, rfl, here⟩ | ⟨i, c, rest, found, rfl, here⟩)
          · exact ⟨0, b, rest, rfl, rfl, here⟩
          · exact ⟨i + 1, c, rest, found, by rw [Nat.add_right_comm, Nat.add_assoc], here⟩
        · rintro ⟨_ | i, c, rest, found, rfl, here⟩
          · cases found
            exact Or.inl ⟨rest, rfl, here⟩
          · exact Or.inr ⟨i, c, rest, found, by rw [Nat.add_right_comm, Nat.add_assoc], here⟩

theorem flatMap {f : β → List α} {stands : β → List Nat → α → Prop} (bs : List β)
    (each : ∀ b ∈ bs, Addressed (stands b) (f b)) : Addressed
      (fun path a => ∃ i b rest, bs[i]? = some b ∧ path = i :: rest ∧ stands b rest a)
      (bs.flatMap f) :=
  (flatMap_from bs 0 each).congr fun path a => by simp only [Nat.zero_add]

/-- Children that are leaves. -/
theorem map (f : β → α) (bs : List β) :
    Addressed (fun path a => ∃ i b, bs[i]? = some b ∧ path = [i] ∧ a = f b) (bs.map f) := by
  rw [List.map_eq_flatMap]
  refine (flatMap bs fun b _ => root (f b)).congr fun path a => ?_
  constructor
  · rintro ⟨i, b, _, found, rfl, rfl, rfl⟩
    exact ⟨i, b, found, rfl, rfl⟩
  · rintro ⟨i, b, found, rfl, rfl⟩
    exact ⟨i, b, [], found, rfl, rfl, rfl⟩

/-! ## What is read off a list -/

theorem mem_iff (h : Addressed at_ l) {a : α} : a ∈ l ↔ ∃ path, at_ path a := by
  obtain ⟨sites, rfl, -, stands⟩ := h
  simp only [List.mem_map, Prod.exists, stands, exists_eq_right]

/-- At one address there is one member. -/
theorem unique (h : Addressed at_ l) {path : List Nat} {a b : α} (here : at_ path a)
    (here' : at_ path b) : a = b := by
  obtain ⟨sites, rfl, sorted, stands⟩ := h
  have nodup : (sites.map Prod.fst).Nodup := List.pairwise_map.mpr (sorted.imp fun less => ne_of_lt less)
  have same := List.inj_on_of_nodup_map nodup ((stands path a).mpr here) ((stands path b).mpr here') rfl
  exact congrArg Prod.snd same

/-- A member that comes first stands at an address before those of all members that come later. -/
theorem exists_first (h : Addressed at_ l) {before after : List α} {a : α}
    (split : l = before ++ a :: after) :
    ∃ path, at_ path a ∧ ∀ path' b, at_ path' b → b ∉ before → path' = path ∨ path < path' := by
  obtain ⟨sites, rfl, sorted, stands⟩ := h
  obtain ⟨sites₁, rest, rfl, rfl, tail⟩ := List.map_eq_append_iff.mp split
  obtain ⟨⟨path, a⟩, sites₂, rfl, rfl, rfl⟩ := List.map_eq_cons_iff.mp tail
  refine ⟨path, (stands path a).mp (by simp), fun path' b here new => ?_⟩
  rcases List.mem_append.mp ((stands path' b).mpr here) with earlier | later
  · exact absurd (List.mem_map_of_mem earlier) new
  · rcases List.mem_cons.mp later with same | later
    · exact Or.inl (congrArg Prod.fst same)
    · have ordered := (List.pairwise_append.mp sorted).2.1
      exact Or.inr ((List.pairwise_cons.mp ordered).1 _ later)

/-- The first member with a property stands at the least address of one that has it. -/
theorem find?_eq_some_iff (h : Addressed at_ l) {P : α → Bool} {a : α} :
    l.find? P = some a ↔ ∃ path, at_ path a ∧ P a = true
      ∧ ∀ path' b, at_ path' b → P b = true → path ≤ path' := by
  have first : ∀ {a}, l.find? P = some a → ∃ path, at_ path a ∧ P a = true
      ∧ ∀ path' b, at_ path' b → P b = true → path ≤ path' := by
    intro a found
    obtain ⟨has, before, after, split, lack⟩ := List.find?_eq_some_iff_append.mp found
    obtain ⟨path, here, least⟩ := h.exists_first split
    refine ⟨path, here, has, fun path' b here' has' => ?_⟩
    have new : b ∉ before := fun mem => by simpa [has'] using lack b mem
    rcases least path' b here' new with rfl | later
    · exact le_refl _
    · exact le_of_lt later
  refine ⟨first, ?_⟩
  rintro ⟨path, here, has, least⟩
  obtain ⟨b, found⟩ := Option.isSome_iff_exists.mp
    (List.find?_isSome.mpr ⟨a, h.mem_iff.mpr ⟨path, here⟩, has⟩)
  -- Both addresses are the least ones, so that they are one.
  obtain ⟨path', here', has', least'⟩ := first found
  have same := le_antisymm (least path' b here' has') (least' path a here has)
  rw [found, h.unique here (same ▸ here')]

/-- Without repetitions, members are in the order of the addresses where they stand first. -/
theorem pairwise_eraseDups [BEq α] [LawfulBEq α] (h : Addressed at_ l) :
    l.eraseDups.Pairwise fun a b => ∃ path, at_ path a ∧ ∀ path', at_ path' b → path < path' := by
  refine (pairwise_first_eraseDups l).imp ?_
  rintro a b ⟨before, after, split, new, apart⟩
  obtain ⟨path, here, least⟩ := h.exists_first split
  refine ⟨path, here, fun path' here' => ?_⟩
  rcases least path' b here' new with rfl | later
  · exact absurd (h.unique here' here) apart
  · exact later

end Addressed
end SelectionGraph
