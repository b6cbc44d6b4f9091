import Mathlib.Data.List.Nodup
import SelectionGraph.Inclusion.OfDirectives
import SelectionGraph.Proofs.Inclusion.Equality

/-!
# Algebra — what the operations on conditions mean

Under given values of the variables every operation on conditions is a Boolean operation:

* `Inclusion.holds_merge`        — a selection reached in two ways: or;
* `Inclusion.restrict_when`      — a disjunction under a guard: its pairs with the guard's members;
* `Inclusion.any_under`          — a selection reached under a guard: and, `none` being never;
* `Verdict.holds_ofDirectives`   — directives: all of `@include` and `@skip` allow the selection;
* `Inclusion.exists_holds`       — every inclusion holds for some values.
-/

namespace SelectionGraph

variable {σ : Assignment}

/-! ## Disjunctions -/

namespace Disjunction

theorem holds_iff {d : Disjunction} :
    d.holds σ = true ↔ ∃ c ∈ d.members, c.holds σ = true := by
  simp [holds]

theorem holds_single (c : Conjunction) : (single c).holds σ = c.holds σ := by
  simp [holds, single]

/-- A member that is there already adds nothing. -/
theorem holds_insert (d : Disjunction) (c : Conjunction) :
    (d.insert c).holds σ = (d.holds σ || c.holds σ) := by
  unfold insert
  split
  · rename_i held
    obtain ⟨m, mem, eq⟩ := List.any_eq_true.mp held
    have same := Conjunction.holds_congr σ eq
    cases h : c.holds σ with
    | false => simp
    | true => simp only [Bool.or_true, holds_iff]; exact ⟨m, mem, same.trans h⟩
  · simp [holds]

theorem holds_foldl_insert (cs : List Conjunction) (d : Disjunction) :
    (cs.foldl insert d).holds σ = (d.holds σ || cs.any (Conjunction.holds σ)) := by
  induction cs generalizing d with
  | nil => simp
  | cons c cs ih => rw [List.foldl_cons, ih, holds_insert, List.any_cons, Bool.or_assoc]

theorem holds_union (d e : Disjunction) : (d.union e).holds σ = (d.holds σ || e.holds σ) :=
  holds_foldl_insert e.members d

theorem any_ofList? (cs : List Conjunction) :
    (ofList? cs).any (holds σ) = cs.any (Conjunction.holds σ) := by
  cases cs with
  | nil => rfl
  | cons c cs => simp only [ofList?, Option.any_some, holds_foldl_insert, holds_single, List.any_cons]

end Disjunction

/-! ## Inclusions -/

theorem Conjunction.holds_merge (c d : Conjunction) :
    (c.merge d).holds σ = (c.holds σ && d.holds σ) := by
  rw [merge, Verdict.holds_allOf, List.all_append]
  rfl

/-- Every conjunction fails for some values: those that falsify its first condition. -/
theorem Conjunction.exists_fails (c : Conjunction) : ∃ σ : Assignment, c.holds σ = false := by
  obtain ⟨x, rest, conditions⟩ := List.exists_cons_of_ne_nil c.conditions_ne_nil
  exact ⟨fun _ => x.isInverted, by simp [holds, conditions, Condition.holds]⟩

/-- Putting two conjunctions together always leaves a condition. -/
theorem Conjunction.merge_ne_included (c d : Conjunction) : c.merge d ≠ .included := by
  intro h
  obtain ⟨σ, fails⟩ := c.exists_fails
  have holds := c.holds_merge (σ := σ) d
  rw [h, fails] at holds
  cases holds

namespace Inclusion

theorem holds_merge (i j : Inclusion) : (i.merge j).holds σ = (i.holds σ || j.holds σ) := by
  cases i <;> cases j <;> simp [merge, holds, Disjunction.holds_union]

/-- The members that come of two disjunctions, each of the first with each of the second. -/
def pairs (d guard : Disjunction) : List Conjunction :=
  (d.members.flatMap fun c => guard.members.map c.merge).filterMap Verdict.conjunction?

theorem mem_pairs {d guard : Disjunction} {r : Conjunction} :
    r ∈ pairs d guard ↔ ∃ c ∈ d.members, ∃ e ∈ guard.members, c.merge e = .conditional r := by
  have one : ∀ v : Verdict, v.conjunction? = some r ↔ v = .conditional r := by
    intro v
    cases v <;> simp [Verdict.conjunction?]
  simp only [pairs, List.mem_filterMap, List.mem_flatMap, List.mem_map, one]
  constructor
  · rintro ⟨_, ⟨c, memC, e, memE, rfl⟩, merged⟩
    exact ⟨c, memC, e, memE, merged⟩
  · rintro ⟨c, memC, e, memE, merged⟩
    exact ⟨_, ⟨c, memC, e, memE, rfl⟩, merged⟩

/-- Some pair holds when both disjunctions do. -/
theorem any_pairs (d guard : Disjunction) :
    (pairs d guard).any (Conjunction.holds σ) = (d.holds σ && guard.holds σ) := by
  rw [Bool.eq_iff_iff, Bool.and_eq_true, Disjunction.holds_iff, Disjunction.holds_iff,
    List.any_eq_true]
  constructor
  · rintro ⟨r, mem, holds⟩
    obtain ⟨c, memC, e, memE, merged⟩ := mem_pairs.mp mem
    have both := c.holds_merge (σ := σ) e
    rw [merged] at both
    obtain ⟨holdsC, holdsE⟩ := Bool.and_eq_true_iff.mp (both.symm.trans holds)
    exact ⟨⟨c, memC, holdsC⟩, ⟨e, memE, holdsE⟩⟩
  · rintro ⟨⟨c, memC, holdsC⟩, ⟨e, memE, holdsE⟩⟩
    have both := c.holds_merge (σ := σ) e
    rw [holdsC, holdsE] at both
    cases merged : c.merge e with
    | included => exact absurd merged (c.merge_ne_included e)
    | skipped => rw [merged] at both; cases both
    | conditional r =>
        rw [merged] at both
        exact ⟨r, mem_pairs.mpr ⟨c, memC, e, memE, merged⟩, both⟩

/-- Under a guard a disjunction comes to its pairs with the guard. -/
theorem restrict_when (d guard : Disjunction) :
    (when d).restrict guard = (Disjunction.ofList? (pairs d guard)).map when := by
  rw [restrict, if_neg]
  · rfl
  · -- No two members come to nothing.
    rw [List.contains_eq_any_beq, List.any_eq_true]
    rintro ⟨v, mem, same⟩
    obtain ⟨c, -, mem⟩ := List.mem_flatMap.mp mem
    obtain ⟨e, -, rfl⟩ := List.mem_map.mp mem
    cases result : c.merge e with
    | included => exact c.merge_ne_included e result
    | skipped => rw [result] at same; cases same
    | conditional r => rw [result] at same; cases same

theorem any_restrict (i : Inclusion) (guard : Disjunction) :
    (i.restrict guard).any (holds σ) = (i.holds σ && guard.holds σ) := by
  cases i with
  | always => simp [restrict, holds]
  | when d =>
      rw [restrict_when, Option.any_map]
      calc
        _ = (Disjunction.ofList? (pairs d guard)).any (Disjunction.holds σ) := rfl
        _ = (pairs d guard).any (Conjunction.holds σ) := Disjunction.any_ofList? _
        _ = (d.holds σ && guard.holds σ) := any_pairs d guard

/-- A selection that is reached under a guard is included when both hold. -/
theorem any_under (i guard : Inclusion) :
    (i.under guard).any (holds σ) = (i.holds σ && guard.holds σ) := by
  cases guard with
  | always => simp [under, holds]
  | when d => exact any_restrict i d

end Inclusion

/-! ## Conditions can be met -/

theorem Conjunction.exists_holds (c : Conjunction) : ∃ σ : Assignment, c.holds σ = true := by
  refine ⟨fun name => c.conditions.any fun d => d.name == name && !d.isInverted, ?_⟩
  rw [holds, List.all_eq_true]
  intro d mem
  cases h : d.isInverted with
  | false =>
      have : (c.conditions.any fun e => e.name == d.name && !e.isInverted) = true :=
        List.any_eq_true.mpr ⟨d, mem, by simp [h]⟩
      simp [Condition.holds, this, h]
  | true =>
      -- No other condition is on the variable of `d`.
      have : (c.conditions.any fun e => e.name == d.name && !e.isInverted) = false := by
        rw [List.any_eq_false]
        intro e mem' both
        simp only [Bool.and_eq_true, beq_iff_eq] at both
        have eq : e = d := List.inj_on_of_nodup_map c.nodup_names mem' mem both.1
        simp [eq, h] at both
      simp [Condition.holds, this, h]

theorem Disjunction.exists_holds (d : Disjunction) : ∃ σ : Assignment, d.holds σ = true := by
  obtain ⟨c, rest, eq⟩ := List.exists_cons_of_ne_nil d.members_ne_nil
  obtain ⟨σ, holds⟩ := c.exists_holds
  exact ⟨σ, holds_iff.mpr ⟨c, by simp [eq], holds⟩⟩

/-- Every inclusion holds for some values of the variables. -/
theorem Inclusion.exists_holds : ∀ i : Inclusion, ∃ σ : Assignment, i.holds σ = true
  | always => ⟨fun _ => true, rfl⟩
  | when d => d.exists_holds

/-! ## Directives -/

/-- A directive does not rule the selection out. -/
def Directive.allows (σ : Assignment) (d : Directive) : Bool :=
  match Verdict.polarity? d.name with
  | none => true
  | some isInverted =>
      match d.argument? "if" with
      | some (.boolean value) => value != isInverted
      | some (.var name) => σ name != isInverted
      | _ => false

/-- All `@include` and `@skip` of a list hold. -/
def Directive.allow (σ : Assignment) (ds : List Directive) : Bool :=
  ds.all (Directive.allows σ)

namespace Verdict

theorem holds_read {conditions : List Condition} {ds : List Directive} {v : Verdict} :
    read conditions ds = .ok v →
      v.holds σ = (conditions.all (Condition.holds σ) && Directive.allow σ ds) := by
  induction ds generalizing conditions with
  | nil =>
      intro h
      simp only [read, Except.ok.injEq] at h
      simp [← h, holds_allOf, Directive.allow]
  | cons d ds ih =>
      intro h
      rw [read] at h
      simp only [Directive.allow, List.all_cons, Directive.allows] at ih ⊢
      cases guard : polarity? d.name with
      | none =>
          simp only [guard] at h ⊢
          rw [ih h, Bool.true_and]
      | some isInverted =>
          simp only [guard] at h ⊢
          cases argument : d.argument? "if" with
          | none =>
              rw [argument] at h
              cases h
          | some value =>
              rw [argument] at h
              cases value with
              | boolean value =>
                  dsimp only at h ⊢
                  by_cases rulesOut : (value == isInverted) = true
                  · -- The literal rules the selection out, whatever follows.
                    rw [if_pos rulesOut] at h
                    cases h
                    simp_all [holds]
                  · rw [if_neg rulesOut] at h
                    rw [ih h, bne, Bool.eq_false_iff.mpr rulesOut, Bool.not_false, Bool.true_and]
              | var name =>
                  dsimp only at h ⊢
                  rw [ih h, List.all_append, Bool.and_assoc]
                  simp [Condition.holds]
              | _ => cases h

/-- The verdict on directives means that all `@include` and `@skip` allow the selection. -/
theorem holds_ofDirectives {ds : List Directive} {v : Verdict} (h : ofDirectives ds = .ok v) :
    v.holds σ = Directive.allow σ ds := by
  simpa using holds_read h

/-- Directives that allow a selection can be read. -/
theorem exists_read {ds : List Directive} (allowed : Directive.allow σ ds = true)
    (conditions : List Condition) : ∃ v, read conditions ds = .ok v := by
  induction ds generalizing conditions with
  | nil => exact ⟨_, rfl⟩
  | cons d ds ih =>
      simp only [Directive.allow, List.all_cons, Bool.and_eq_true] at allowed ih
      obtain ⟨here, later⟩ := allowed
      rw [read]
      unfold Directive.allows at here
      split
      · exact ih later _
      · rename_i isInverted guard
        rw [guard] at here
        split <;> rename_i argument <;> rw [argument] at here
        · cases here
        · split
          · exact ⟨_, rfl⟩
          · exact ih later _
        · exact ih later _
        · simp_all

/-- A selection that is allowed is not passed over. -/
theorem of_allow {ds : List Directive} (allowed : Directive.allow σ ds = true) :
    ∃ v conditions, ofDirectives ds = .ok v ∧ v.scope? = some conditions
      ∧ conditions.all (Conjunction.holds σ) = true := by
  obtain ⟨v, read⟩ := exists_read allowed []
  have holds : v.holds σ = true := (holds_ofDirectives read).trans allowed
  cases v with
  | included => exact ⟨_, _, read, rfl, rfl⟩
  | skipped => cases holds
  | conditional c => exact ⟨_, _, read, rfl, holds⟩

theorem holds_of_scope? {v : Verdict} {conditions : Option Conjunction} :
    v.scope? = some conditions → v.holds σ = conditions.all (Conjunction.holds σ) := by
  cases v <;> intro h <;> cases h <;> rfl

end Verdict

namespace Inclusion

theorem holds_ofScope (conditions : Option Conjunction) :
    (ofScope conditions).holds σ = conditions.all (Conjunction.holds σ) := by
  cases conditions <;> simp [ofScope, holds, Disjunction.holds_single]

theorem ofDirectives_of_verdict {ds : List Directive} {v : Verdict}
    (h : Verdict.ofDirectives ds = .ok v) : ofDirectives ds = .ok (v.scope?.map ofScope) := by
  rw [ofDirectives, h]
  rfl

theorem verdict_of_ofDirectives {ds : List Directive} {i : Option Inclusion}
    (h : ofDirectives ds = .ok i) :
    ∃ v, Verdict.ofDirectives ds = .ok v ∧ i = v.scope?.map ofScope := by
  unfold ofDirectives at h
  cases read : Verdict.ofDirectives ds with
  | error e => rw [read] at h; cases h
  | ok v =>
      rw [read] at h
      cases h
      exact ⟨v, rfl, rfl⟩

/-- What is not skipped is included when its directives allow it. -/
theorem holds_ofDirectives {ds : List Directive} {i : Inclusion}
    (h : ofDirectives ds = .ok (some i)) : i.holds σ = Directive.allow σ ds := by
  obtain ⟨v, read, scope⟩ := verdict_of_ofDirectives h
  obtain ⟨conditions, eq, rfl⟩ := Option.map_eq_some_iff.mp scope.symm
  rw [holds_ofScope, ← Verdict.holds_ofDirectives read, Verdict.holds_of_scope? eq]

/-- What is allowed is included. -/
theorem of_allow {ds : List Directive} (allowed : Directive.allow σ ds = true) :
    ∃ i, ofDirectives ds = .ok (some i) ∧ i.holds σ = true := by
  obtain ⟨v, conditions, read, scope, holds⟩ := Verdict.of_allow allowed
  refine ⟨ofScope conditions, ?_, (holds_ofScope conditions).trans holds⟩
  unfold ofDirectives
  rw [read]
  change Except.ok (v.scope?.map ofScope) = _
  rw [scope]
  rfl

end Inclusion
end SelectionGraph
