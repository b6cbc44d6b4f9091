import SelectionGraph.Inclusion.Disjunction

/-!
# Holds — conditions under given values of the variables

What conditions mean: with a value for every variable, each of them holds or does not.

- `Assignment`                     : values for all variables;
- `Condition.holds` and so on, up to `Inclusion.holds` and `Verdict.holds`;
- `Verdict.holds_allOf`            : putting conditions together does not change what they mean.
-/

namespace SelectionGraph

/-- Values for all variables. -/
abbrev Assignment := Name → Bool

def Condition.holds (σ : Assignment) (c : Condition) : Bool :=
  σ c.name != c.isInverted

def Conjunction.holds (σ : Assignment) (c : Conjunction) : Bool :=
  c.conditions.all (Condition.holds σ)

def Disjunction.holds (σ : Assignment) (d : Disjunction) : Bool :=
  d.members.any (Conjunction.holds σ)

def Inclusion.holds (σ : Assignment) : Inclusion → Bool
  | always => true
  | when d => d.holds σ

def Verdict.holds (σ : Assignment) : Verdict → Bool
  | included => true
  | skipped => false
  | conditional c => c.holds σ

namespace Verdict

/-- A condition on a variable that is already required to be otherwise does not hold with it. -/
theorem holds_of_find? {σ : Assignment} {gathered : List Condition} {c d : Condition}
    (found : gathered.find? (fun e => e.name == c.name) = some d)
    (all : gathered.all (Condition.holds σ) = true) :
    Condition.holds σ c = (d.isInverted == c.isInverted) := by
  have same : d.name = c.name := by simpa using List.find?_some found
  have holds := List.all_eq_true.mp all d (List.mem_of_find?_eq_some found)
  simp only [Condition.holds, same] at holds ⊢
  revert holds
  cases σ c.name <;> cases d.isInverted <;> cases c.isInverted <;> simp

/-- Gathering keeps what the conditions mean; a contradiction never holds. -/
theorem holds_gather (σ : Assignment) (gathered conditions : List Condition) :
    ((gather gathered conditions).any fun all => all.all (Condition.holds σ))
      = (gathered.all (Condition.holds σ) && conditions.all (Condition.holds σ)) := by
  induction conditions generalizing gathered with
  | nil => simp [gather]
  | cons c rest ih =>
      rw [gather, List.all_cons]
      cases all : gathered.all (Condition.holds σ) with
      | false =>
          -- What was gathered already fails, with or without `c`.
          split
          · split <;> simp [ih, all]
          · simp [ih, all]
      | true =>
          split
          · rename_i d found
            rw [holds_of_find? found all]
            split
            · rename_i eq
              simp [ih, all, eq]
            · rename_i ne
              simp_all
          · simp [ih, all]

/-- The verdict on conditions means that all of them hold. -/
theorem holds_allOf (σ : Assignment) (conditions : List Condition) :
    (allOf conditions).holds σ = conditions.all (Condition.holds σ) := by
  have gathered := holds_gather σ [] conditions
  rw [allOf]
  split <;> rename_i h <;> rw [h] at gathered <;> simpa [Verdict.holds, Conjunction.holds] using gathered

end Verdict
end SelectionGraph
