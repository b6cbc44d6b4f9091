import Mathlib.Data.List.Perm.Subperm
import SelectionGraph.Inclusion.Holds
import SelectionGraph.Scope

/-!
# Equality — the equality of conditions, scopes and scope paths

`==` on conjunctions forgets the order in which conditions were required, so it is coarser than
`=`.  Everything that is found by a scope path is found up to this equality.  This file proves

* `Conjunction.beq_iff` — conjunctions are equal when they have the same conditions;
* `EquivBEq` instances for `Conjunction`, `Scope` and `ScopePath`;
* `Conjunction.holds_congr`, `ScopePath.concat_congr` — what respects the equality.
-/

namespace SelectionGraph

/-! ## Containers of values with an equivalence -/

namespace Ordered

variable {α : Type} [BEq α] [EquivBEq α]

theorem option_symm {a b : Option α} : (a == b) = true → (b == a) = true := by
  cases a <;> cases b <;> intro h
  · rfl
  · exact absurd h (by simp)
  · exact absurd h (by simp)
  · exact BEq.symm (α := α) h

theorem option_trans {a b c : Option α} :
    (a == b) = true → (b == c) = true → (a == c) = true := by
  cases a <;> cases b <;> cases c <;> intro h₁ h₂ <;> try simp_all
  exact BEq.trans h₁ h₂

theorem list_symm {l m : List α} : (l == m) = true → (m == l) = true := by
  induction l generalizing m with
  | nil => cases m <;> simp
  | cons a l ih =>
      cases m with
      | nil => simp
      | cons b m =>
          intro h
          simp only [List.cons_beq_cons, Bool.and_eq_true] at h ⊢
          exact ⟨BEq.symm h.1, ih h.2⟩

theorem list_trans {l m n : List α} : (l == m) = true → (m == n) = true → (l == n) = true := by
  induction l generalizing m n with
  | nil => cases m <;> cases n <;> simp
  | cons a l ih =>
      cases m <;> cases n <;> intro h₁ h₂ <;> try simp_all
      exact ⟨BEq.trans h₁.1 h₂.1, ih h₁.2 h₂.2⟩

omit [EquivBEq α] in
theorem append_congr {l l' m m' : List α} (h₁ : (l == l') = true) (h₂ : (m == m') = true) :
    (l ++ m == l' ++ m') = true := by
  induction l generalizing l' with
  | nil => cases l' <;> simp_all
  | cons a l ih =>
      cases l' with
      | nil => simp at h₁
      | cons b l' =>
          simp only [List.cons_append, List.cons_beq_cons, Bool.and_eq_true] at h₁ ⊢
          exact ⟨h₁.1, ih h₁.2⟩

end Ordered

/-! ## Conjunctions -/

namespace Conjunction

theorem nodup (c : Conjunction) : c.conditions.Nodup :=
  (List.pairwise_map.mp c.nodup_names).imp fun h e => h (congrArg Condition.name e)

/-- Conjunctions are equal when they have the same conditions. -/
theorem beq_iff {c d : Conjunction} :
    (c == d) = true ↔ ∀ x, x ∈ c.conditions ↔ x ∈ d.conditions := by
  change same c d = true ↔ _
  simp only [same, Bool.and_eq_true, beq_iff_eq, List.all_eq_true, List.contains_iff_mem]
  constructor
  · -- Among lists without repetition, one that is contained in one of its length is the same.
    rintro ⟨length, included⟩ x
    have perm : c.conditions.Perm d.conditions :=
      (List.subperm_of_subset c.nodup included).perm_of_length_le (by omega)
    exact perm.mem_iff
  · intro h
    have perm := (List.perm_ext_iff_of_nodup c.nodup d.nodup).mpr h
    exact ⟨perm.length_eq, fun x mem => (h x).mp mem⟩

instance : EquivBEq Conjunction where
  rfl := beq_iff.mpr fun _ => Iff.rfl
  symm h := beq_iff.mpr fun x => (beq_iff.mp h x).symm
  trans h₁ h₂ := beq_iff.mpr fun x => (beq_iff.mp h₁ x).trans (beq_iff.mp h₂ x)

theorem holds_congr (σ : Assignment) {c d : Conjunction} (h : (c == d) = true) :
    c.holds σ = d.holds σ := by
  have same := beq_iff.mp h
  rw [Bool.eq_iff_iff]
  simp only [holds, List.all_eq_true, same]

end Conjunction

/-! ## Scopes and scope paths -/

namespace Scope

/-- A scope is entered: its conditions hold. -/
def holds (σ : Assignment) (s : Scope) : Bool :=
  s.conditions.all (Conjunction.holds σ)

theorem beq_iff {s t : Scope} :
    (s == t) = true ↔ s.typeCondition = t.typeCondition ∧ (s.conditions == t.conditions) = true := by
  change (s.typeCondition == t.typeCondition && s.conditions == t.conditions) = true ↔ _
  rw [Bool.and_eq_true, beq_iff_eq]

instance : EquivBEq Scope where
  rfl := beq_iff.mpr ⟨rfl, BEq.refl _⟩
  symm h := beq_iff.mpr ⟨(beq_iff.mp h).1.symm, Ordered.option_symm (beq_iff.mp h).2⟩
  trans h₁ h₂ := beq_iff.mpr
    ⟨(beq_iff.mp h₁).1.trans (beq_iff.mp h₂).1,
      Ordered.option_trans (beq_iff.mp h₁).2 (beq_iff.mp h₂).2⟩

theorem holds_congr (σ : Assignment) {s t : Scope} (h : (s == t) = true) :
    s.holds σ = t.holds σ := by
  obtain ⟨-, same⟩ := beq_iff.mp h
  unfold holds
  cases hs : s.conditions with
  | none => cases ht : t.conditions <;> simp_all
  | some c =>
      cases ht : t.conditions with
      | none => simp [hs, ht] at same
      | some d =>
          rw [hs, ht] at same
          exact Conjunction.holds_congr σ same

end Scope

namespace ScopePath

instance : EquivBEq ScopePath where
  rfl := BEq.refl (α := List Scope) _
  symm h := Ordered.list_symm h
  trans h₁ h₂ := Ordered.list_trans h₁ h₂

theorem concat_congr {p p' q q' : ScopePath} (h₁ : (p == p') = true) (h₂ : (q == q') = true) :
    (p.concat q == p'.concat q') = true :=
  Ordered.append_congr h₁ h₂

end ScopePath
end SelectionGraph
