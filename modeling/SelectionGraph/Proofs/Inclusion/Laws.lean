import SelectionGraph.Proofs.Inclusion.Members

/-!
# Laws — the operations on conditions are an exact algebra

Putting conditions together, reaching a selection in two ways and reaching it under a guard are `and`,
`or` and `and` of what conditions mean.  They have the laws of these up to `==` as well, which looks at
the members of a disjunction: under a guard the members are what a member of the one and a member of
the other come to, and this does not depend on the order of the guards.

* `Verdict.allOf_conditions`     — a conjunction is what its own conditions come to;
* `Conjunction.merge_cases`      — what two conjunctions come to;
* `Disjunction.Joint`            — a conjunction means what members of two disjunctions mean together;
* `Inclusion.contains_restrict`  — the members that a disjunction has under a guard;
* `merge_comm`, `merge_assoc`, `merge_self`, `restrict_comm`, `restrict_assoc` — the laws;
* `conditions_are_an_exact_algebra` — all of it.
-/

namespace SelectionGraph

variable {σ : Assignment}

/-! ## Conjunctions -/

namespace Verdict

/-- Conditions on different variables are gathered as they are. -/
theorem gather_of_nodup {gathered conditions : List Condition}
    (nodup : ((gathered ++ conditions).map Condition.name).Nodup) :
    gather gathered conditions = some (gathered ++ conditions) := by
  induction conditions generalizing gathered with
  | nil => rw [gather, List.append_nil]
  | cons c rest ih =>
      have new : (gathered.find? fun d => d.name == c.name) = none := by
        rw [List.map_append, List.map_cons, List.nodup_append] at nodup
        rw [List.find?_eq_none]
        intro d mem same
        exact nodup.2.2 _ (List.mem_map_of_mem mem) _ List.mem_cons_self (beq_iff_eq.mp same)
      rw [List.append_cons] at nodup ⊢
      rw [gather, new]
      exact ih nodup

/-- A conjunction is what its own conditions come to. -/
theorem allOf_conditions (c : Conjunction) : allOf c.conditions = .conditional c := by
  have gathered : gather [] c.conditions = some c.conditions := gather_of_nodup c.nodup_names
  unfold allOf
  split <;> rename_i h <;> rw [gathered] at h
  · cases h
  · exact absurd (Option.some.inj h) c.conditions_ne_nil
  · cases c
    cases Option.some.inj h
    rfl

end Verdict

namespace Conjunction

/-- Two conjunctions contradict each other, or come to one that holds where both do. -/
theorem merge_cases (c d : Conjunction) :
    c.merge d = .skipped ∧ (∀ σ, (c.holds σ && d.holds σ) = false)
      ∨ ∃ r, c.merge d = .conditional r ∧ ∀ σ, r.holds σ = (c.holds σ && d.holds σ) := by
  have both := fun σ => c.holds_merge (σ := σ) d
  cases result : c.merge d with
  | included => exact absurd result (c.merge_ne_included d)
  | skipped =>
      rw [result] at both
      exact Or.inl ⟨rfl, fun σ => (both σ).symm⟩
  | conditional r =>
      rw [result] at both
      exact Or.inr ⟨r, rfl, both⟩

/-- They contradict each other exactly if they never hold together. -/
theorem merge_eq_skipped_iff {c d : Conjunction} :
    c.merge d = .skipped ↔ ∀ σ, (c.holds σ && d.holds σ) = false := by
  rcases c.merge_cases d with ⟨skipped, never⟩ | ⟨r, conditional, holds⟩
  · exact iff_of_true skipped never
  · rw [conditional]
    refine iff_of_false nofun fun never => ?_
    obtain ⟨σ, held⟩ := r.exists_holds
    rw [holds, never] at held
    cases held

end Conjunction

/-! ## Members under a guard -/

/-- A conjunction means what a member of each of two disjunctions mean together. -/
def Disjunction.Joint (d e : Disjunction) (c : Conjunction) : Prop :=
  ∃ a ∈ d.members, ∃ b ∈ e.members, ∀ σ, c.holds σ = (a.holds σ && b.holds σ)

namespace Disjunction

variable {c : Conjunction} {d e f : Disjunction}

theorem joint_comm : d.Joint e c ↔ e.Joint d c := by
  suffices flip : ∀ {d e : Disjunction}, d.Joint e c → e.Joint d c from ⟨flip, flip⟩
  rintro d e ⟨a, memA, b, memB, holds⟩
  exact ⟨b, memB, a, memA, fun σ => (holds σ).trans (Bool.and_comm _ _)⟩

/-- The pairs of two disjunctions are, up to equality, what is joint to them. -/
theorem joint_iff : d.Joint e c ↔ ∃ r ∈ Inclusion.pairs d e, (r == c) = true := by
  constructor
  · rintro ⟨a, memA, b, memB, holds⟩
    rcases a.merge_cases b with ⟨-, never⟩ | ⟨r, merged, both⟩
    · obtain ⟨σ, held⟩ := c.exists_holds
      rw [holds, never] at held
      cases held
    · refine ⟨r, Inclusion.mem_pairs.mpr ⟨a, memA, b, memB, merged⟩, ?_⟩
      exact Conjunction.beq_of_holds fun σ => (both σ).trans (holds σ).symm
  · rintro ⟨r, mem, same⟩
    obtain ⟨a, memA, b, memB, merged⟩ := Inclusion.mem_pairs.mp mem
    have both := fun σ => a.holds_merge (σ := σ) b
    rw [merged] at both
    exact ⟨a, memA, b, memB, fun σ => (Conjunction.holds_congr σ same).symm.trans (both σ)⟩

/-- Members count up to equality. -/
theorem joint_iff_contains :
    d.Joint e c ↔ ∃ m, d.contains m = true ∧ ∃ b ∈ e.members,
      ∀ σ, c.holds σ = (m.holds σ && b.holds σ) := by
  constructor
  · rintro ⟨a, memA, rest⟩
    exact ⟨a, contains_iff.mpr ⟨a, memA, BEq.rfl⟩, rest⟩
  · rintro ⟨m, held, b, memB, holds⟩
    obtain ⟨a, memA, same⟩ := contains_iff.mp held
    exact ⟨a, memA, b, memB, fun σ => by rw [holds, Conjunction.holds_congr σ same]⟩

/-- Members of three disjunctions can be put together in either order. -/
theorem joint_assoc :
    (∃ m, d.Joint e m ∧ ∃ k ∈ f.members, ∀ σ, c.holds σ = (m.holds σ && k.holds σ))
      ↔ ∃ m, e.Joint f m ∧ ∃ a ∈ d.members, ∀ σ, c.holds σ = (m.holds σ && a.holds σ) := by
  -- Two of three members come to a conjunction, as all three hold for some values, with `c`.
  obtain ⟨τ, held⟩ := c.exists_holds
  have join : ∀ {a b x : Conjunction}, (∀ σ, c.holds σ = (a.holds σ && b.holds σ && x.holds σ)) →
      ∃ m : Conjunction, ∀ σ, m.holds σ = (a.holds σ && b.holds σ) := by
    intro a b x holds
    rcases a.merge_cases b with ⟨-, never⟩ | ⟨m, -, both⟩
    · rw [holds, never] at held
      cases held
    · exact ⟨m, both⟩
  constructor
  · rintro ⟨m, ⟨a, memA, b, memB, both⟩, k, memK, holds⟩
    have all : ∀ σ, c.holds σ = (b.holds σ && k.holds σ && a.holds σ) := fun σ => by
      rw [holds, both, Bool.and_assoc, Bool.and_comm]
    obtain ⟨n, joined⟩ := join all
    exact ⟨n, ⟨b, memB, k, memK, joined⟩, a, memA, fun σ => by rw [all, joined]⟩
  · rintro ⟨m, ⟨b, memB, k, memK, both⟩, a, memA, holds⟩
    have all : ∀ σ, c.holds σ = (a.holds σ && b.holds σ && k.holds σ) := fun σ => by
      rw [holds, both, Bool.and_comm, Bool.and_assoc]
    obtain ⟨n, joined⟩ := join all
    exact ⟨n, ⟨a, memA, b, memB, joined⟩, k, memK, fun σ => by rw [all, joined]⟩

end Disjunction

namespace Inclusion

variable {d e r : Disjunction} {i j k : Inclusion} {guard : Disjunction}

/-- Under a guard a selection is never included unconditionally. -/
theorem restrict_ne_always (i : Inclusion) (guard : Disjunction) :
    i.restrict guard ≠ some .always := by
  cases i with
  | always => simp [restrict]
  | when d => rw [restrict_when]; simp

/-- What is left of an inclusion under a guard holds where both do. -/
theorem holds_of_restrict (restricted : i.restrict guard = some j) :
    j.holds σ = (i.holds σ && guard.holds σ) := by
  rw [← any_restrict, restricted, Option.any_some]

/-- Something is left of what is restricted if it can hold for some values. -/
theorem isSome_iff_exists_holds {o : Option Inclusion} :
    o.isSome = true ↔ ∃ σ, o.any (holds σ) = true := by
  cases o with
  | none => simp
  | some i => simpa using i.exists_holds

/-- An inclusion and a guard contradict each other exactly if they never hold together. -/
theorem restrict_eq_none_iff :
    i.restrict guard = none ↔ ∀ σ, (i.holds σ && guard.holds σ) = false := by
  simp only [← any_restrict, ← Option.isNone_iff_eq_none, ← Option.not_isSome,
    Bool.not_eq_true', ← Bool.not_eq_true, isSome_iff_exists_holds, not_exists]

/-- What a disjunction comes to under a guard is a disjunction, whose members are what is joint to
both. -/
theorem contains_restrict (restricted : (when d).restrict e = some i) :
    ∃ r, i = when r ∧ ∀ c, r.contains c = true ↔ d.Joint e c := by
  rw [restrict_when] at restricted
  obtain ⟨r, some, rfl⟩ := Option.map_eq_some_iff.mp restricted
  refine ⟨r, rfl, fun c => ?_⟩
  rw [Disjunction.contains_of_ofList? some, Disjunction.joint_iff]

/-- Under one guard more. -/
theorem any_bind_restrict (o : Option Inclusion) (guard : Disjunction) :
    (o.bind (·.restrict guard)).any (holds σ) = (o.any (holds σ) && guard.holds σ) := by
  cases o with
  | none => rfl
  | some i => exact any_restrict i guard

/-- Under a guard, if there is one. -/
theorem any_bind_under (i : Inclusion) (o : Option Inclusion) :
    (o.bind i.under).any (holds σ) = (i.holds σ && o.any (holds σ)) := by
  cases o with
  | none => exact (Bool.and_false _).symm
  | some guard => exact any_under i guard

/-! ## Laws -/

theorem merge_comm (i j : Inclusion) : (i.merge j == j.merge i) = true :=
  beq_iff.mpr
    ⟨(additive_always i j).trans (or_comm.trans (additive_always j i).symm),
      fun c => (additive_covers c i j).trans (or_comm.trans (additive_covers c j i).symm)⟩

theorem merge_assoc (i j k : Inclusion) : ((i.merge j).merge k == i.merge (j.merge k)) = true := by
  have regroup : ∀ {τ : Inclusion → Prop}, Additive τ →
      (τ ((i.merge j).merge k) ↔ τ (i.merge (j.merge k))) := fun additive => by
    rw [additive, additive, additive, additive, or_assoc]
  exact beq_iff.mpr ⟨regroup additive_always, fun c => regroup (additive_covers c)⟩

theorem merge_self (i : Inclusion) : (i.merge i == i) = true :=
  beq_iff.mpr
    ⟨(additive_always i i).trans or_self_iff, fun c => (additive_covers c i i).trans or_self_iff⟩

/-- Results of restrictions are equal when they hold alike and have the same members. -/
theorem beq_of_restricted {o p : Option Inclusion} (holds : ∀ σ, o.any (holds σ) = p.any (holds σ))
    (same : ∀ i j, o = some i → p = some j → (i == j) = true) : (o == p) = true := by
  have there : o.isSome = true ↔ p.isSome = true := by
    simp only [isSome_iff_exists_holds, holds]
  cases o with
  | none => cases p <;> simp_all
  | some i =>
      cases p with
      | none => simp at there
      | some j => exact same i j rfl rfl

/-- A guard may be taken for what it guards. -/
theorem restrict_comm (d e : Disjunction) :
    ((when d).restrict e == (when e).restrict d) = true := by
  refine beq_of_restricted (fun σ => ?_) fun i j first second => ?_
  · rw [any_restrict, any_restrict]
    exact Bool.and_comm _ _
  · obtain ⟨r, rfl, members⟩ := contains_restrict first
    obtain ⟨s, rfl, members'⟩ := contains_restrict second
    refine Disjunction.beq_iff.mpr fun c => ?_
    rw [members, members', Disjunction.joint_comm]

/-- One guard after the other is one guard that is restricted to the other. -/
theorem restrict_assoc (i : Inclusion) (e f : Disjunction) :
    ((i.restrict e).bind (·.restrict f) == ((when e).restrict f).bind i.under) = true := by
  refine beq_of_restricted (fun σ => ?_) fun j k first second => ?_
  · rw [any_bind_restrict, any_bind_under, any_restrict, any_restrict, Bool.and_assoc]
    rfl
  · obtain ⟨j', inner, outer⟩ := Option.bind_eq_some_iff.mp first
    obtain ⟨k', guards, under⟩ := Option.bind_eq_some_iff.mp second
    obtain ⟨g, rfl, inG⟩ := contains_restrict guards
    cases i with
    | always =>
        -- Nothing is restricted: what is left is the guards themselves.
        cases inner
        cases under
        rw [Option.some.inj (outer.symm.trans guards)]
        exact BEq.rfl
    | when d =>
        obtain ⟨m, rfl, inM⟩ := contains_restrict inner
        obtain ⟨r, rfl, inR⟩ := contains_restrict outer
        obtain ⟨s, rfl, inS⟩ := contains_restrict under
        refine Disjunction.beq_iff.mpr fun c => ?_
        calc r.contains c = true
          _ ↔ m.Joint f c := inR c
          _ ↔ ∃ n, d.Joint e n ∧ ∃ k ∈ f.members, ∀ σ, c.holds σ = (n.holds σ && k.holds σ) := by
            simp only [Disjunction.joint_iff_contains (d := m), inM]
          _ ↔ ∃ n, e.Joint f n ∧ ∃ a ∈ d.members, ∀ σ, c.holds σ = (n.holds σ && a.holds σ) :=
            Disjunction.joint_assoc
          _ ↔ g.Joint d c := by simp only [Disjunction.joint_iff_contains (d := g), inG]
          _ ↔ d.Joint g c := Disjunction.joint_comm
          _ ↔ s.contains c = true := (inS c).symm

/-- What is left under a guard, if anything, is a disjunction that holds where both do. -/
theorem restrict_cases (i : Inclusion) (guard : Disjunction) :
    i.restrict guard = none
      ∨ ∃ r, i.restrict guard = some (when r)
        ∧ ∀ σ, r.holds σ = (i.holds σ && guard.holds σ) := by
  cases restricted : i.restrict guard with
  | none => exact Or.inl rfl
  | some j =>
      cases j with
      | always => exact absurd restricted (restrict_ne_always i guard)
      | when r => exact Or.inr ⟨r, rfl, fun _ => holds_of_restrict restricted⟩

end Inclusion

/-! ## All together -/

/-- What all values of these types have in common, and so all that the operations come to:
disjunctions have members, no two of them equal, and a member has conditions, on different variables,
so that it holds for some values. -/
theorem Disjunction.wellFormed (d : Disjunction) :
    d.members ≠ [] ∧ d.members.Pairwise (fun c e => (c == e) = false)
      ∧ ∀ c ∈ d.members, c.conditions ≠ [] ∧ (c.conditions.map Condition.name).Nodup
        ∧ ∃ σ, c.holds σ = true :=
  ⟨d.members_ne_nil, d.distinct,
    fun c _ => ⟨c.conditions_ne_nil, c.nodup_names, c.exists_holds⟩⟩

/-- The operations on conditions are an exact algebra of what conditions mean, where nothing left
is `none` and a selection that is always included is `always`:
- two conjunctions come to nothing exactly if they contradict each other, and otherwise to a
  conjunction that means both; conjunctions are what `Verdict.allOf` gives;
- a selection reached in two ways is included when one of them includes it, whatever their order;
- under a guard nothing is left exactly if the two contradict each other, and otherwise a disjunction
  that means both; guard and guarded may be exchanged, and guards be put together first. -/
theorem conditions_are_an_exact_algebra :
    (∀ c d : Conjunction, Verdict.allOf c.conditions = .conditional c
      ∧ (c.merge d = .skipped ↔ ∀ σ, (c.holds σ && d.holds σ) = false)
      ∧ (c.merge d = .skipped
        ∨ ∃ r, c.merge d = .conditional r ∧ ∀ σ, r.holds σ = (c.holds σ && d.holds σ)))
    ∧ (∀ x y z : Inclusion, (∀ σ, (x.merge y).holds σ = (x.holds σ || y.holds σ))
      ∧ (x.merge y == y.merge x) = true
      ∧ ((x.merge y).merge z == x.merge (y.merge z)) = true
      ∧ (x.merge x == x) = true)
    ∧ (∀ (x : Inclusion) (g h : Disjunction),
      (x.restrict g = none ↔ ∀ σ, (x.holds σ && g.holds σ) = false)
      ∧ (x.restrict g = none
        ∨ ∃ r, x.restrict g = some (.when r) ∧ ∀ σ, r.holds σ = (x.holds σ && g.holds σ))
      ∧ ((Inclusion.when g).restrict h == (Inclusion.when h).restrict g) = true
      ∧ ((x.restrict g).bind (·.restrict h) == ((Inclusion.when g).restrict h).bind x.under) = true)
    ∧ ∀ d : Disjunction, d.members ≠ [] ∧ d.members.Pairwise (fun c e => (c == e) = false)
      ∧ ∀ c ∈ d.members, c.conditions ≠ [] ∧ (c.conditions.map Condition.name).Nodup
        ∧ ∃ σ, c.holds σ = true := by
  refine ⟨fun c d => ⟨Verdict.allOf_conditions c, Conjunction.merge_eq_skipped_iff, ?_⟩,
    fun x y z => ⟨fun σ => x.holds_merge y, x.merge_comm y, x.merge_assoc y z, x.merge_self⟩,
    fun x g h => ⟨Inclusion.restrict_eq_none_iff, x.restrict_cases g, Inclusion.restrict_comm g h,
      x.restrict_assoc g h⟩,
    Disjunction.wellFormed⟩
  exact (c.merge_cases d).imp_left And.left

end SelectionGraph
