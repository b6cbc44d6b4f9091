import SelectionGraph.Proofs.Inclusion.Algebra
import SelectionGraph.Proofs.Ordered

/-!
# Members — inclusions that are equal whatever their order

`==` on inclusions compares their conjunctions, not only what they mean: `$a || $a && $b` is not
`$a`.  It is settled by some properties of inclusions that hold of a merge exactly if they hold of one
of its parts, so that the order of merging does not matter.

* `Conjunction.beq_of_holds` — conjunctions are equal if they mean the same;
* `Inclusion.Covers`         — an inclusion includes whatever a conjunction allows, by having it as a
  member;
* `Inclusion.beq_iff`        — inclusions are equal if both are unconditional or none is, and they
  cover the same conjunctions;
* `Inclusion.Additive`       — a property of merges;
* `Inclusion.Under`          — a property of what an inclusion comes to under a guard;
* `Inclusion.Respects.under` — if the property does not tell equal inclusions apart, then neither does
  this.
-/

namespace SelectionGraph

/-! ## Conjunctions -/

/-- Conjunctions that hold under the same values have the same conditions: a condition that is in one
only could be made false on its own. -/
theorem Conjunction.mem_of_holds {c d : Conjunction}
    (h : ∀ σ : Assignment, d.holds σ = true → c.holds σ = true) {x : Condition}
    (mem : x ∈ c.conditions) : x ∈ d.conditions := by
  by_contra absent
  obtain ⟨σ, holds⟩ := d.exists_holds
  let τ : Assignment := fun name => if name = x.name then x.isInverted else σ name
  have fails : c.holds τ = false := by
    rw [Conjunction.holds, List.all_eq_false]
    exact ⟨x, mem, by simp [Condition.holds, τ]⟩
  have kept : d.holds τ = true := by
    rw [Conjunction.holds, List.all_eq_true] at holds ⊢
    intro y memY
    by_cases same : y.name = x.name
    · -- A condition on the same variable requires the opposite.
      have opposite : y.isInverted ≠ x.isInverted := by
        intro inverted
        obtain rfl : y = x := by
          cases x
          cases y
          simp_all
        exact absent memY
      simpa [Condition.holds, τ, same] using opposite.symm
    · simpa [Condition.holds, τ, same] using holds y memY
  rw [h τ kept] at fails
  cases fails

theorem Conjunction.beq_of_holds {c d : Conjunction}
    (h : ∀ σ : Assignment, c.holds σ = d.holds σ) : (c == d) = true :=
  Conjunction.beq_iff.mpr fun _ =>
    ⟨Conjunction.mem_of_holds fun σ holds => (h σ).trans holds,
      Conjunction.mem_of_holds fun σ holds => (h σ).symm.trans holds⟩

/-- What a conjunction comes to with another does not tell equal ones apart. -/
theorem Conjunction.merge_congr {c c' r : Conjunction} (h : (c == c') = true) (d : Conjunction)
    (merged : c.merge d = .conditional r) :
    ∃ r', c'.merge d = .conditional r' ∧ (r == r') = true := by
  have same : ∀ σ, r.holds σ = (c'.merge d).holds σ := by
    intro σ
    rw [Conjunction.holds_merge, ← Conjunction.holds_congr σ h, ← Conjunction.holds_merge, merged]
    rfl
  cases result : c'.merge d with
  | included => exact absurd result (c'.merge_ne_included d)
  | skipped =>
      obtain ⟨σ, holds⟩ := r.exists_holds
      rw [same, result] at holds
      cases holds
  | conditional r' => exact ⟨r', rfl, Conjunction.beq_of_holds fun σ => by rw [same, result]; rfl⟩

/-! ## Disjunctions -/

namespace Disjunction

variable {c c' : Conjunction} {d e : Disjunction}

theorem contains_iff : d.contains c = true ↔ ∃ m ∈ d.members, (m == c) = true :=
  List.any_eq_true

theorem contains_congr (h : (c == c') = true) (held : d.contains c = true) :
    d.contains c' = true := by
  obtain ⟨m, mem, same⟩ := contains_iff.mp held
  exact contains_iff.mpr ⟨m, mem, BEq.trans same h⟩

theorem contains_single {m : Conjunction} : (single m).contains c = true ↔ (m == c) = true := by
  simp [contains, single]

theorem contains_insert (m : Conjunction) :
    (d.insert m).contains c = true ↔ d.contains c = true ∨ (m == c) = true := by
  unfold insert
  split
  · rename_i held
    exact ⟨Or.inl, Or.rec id fun same => contains_congr same held⟩
  · simp [contains]

theorem contains_foldl_insert (ms : List Conjunction) (d : Disjunction) :
    (ms.foldl insert d).contains c = true
      ↔ d.contains c = true ∨ ∃ m ∈ ms, (m == c) = true := by
  induction ms generalizing d with
  | nil => simp
  | cons m ms ih => rw [List.foldl_cons, ih, contains_insert, List.exists_mem_cons_iff, or_assoc]

theorem contains_union :
    (d.union e).contains c = true ↔ d.contains c = true ∨ e.contains c = true := by
  rw [union, contains_foldl_insert, contains_iff (d := e)]

theorem contains_of_ofList? {ms : List Conjunction} (h : ofList? ms = some d) :
    d.contains c = true ↔ ∃ m ∈ ms, (m == c) = true := by
  cases ms with
  | nil => cases h
  | cons m ms =>
      cases h
      rw [contains_foldl_insert, contains_single, List.exists_mem_cons_iff]

theorem length_le_of_contained (h : ∀ c ∈ d.members, e.contains c = true) :
    d.members.length ≤ e.members.length :=
  Ordered.length_le_of_covered d.distinct fun c mem => contains_iff.mp (h c mem)

/-- Disjunctions are equal when they have the same members, up to equality. -/
theorem beq_iff : (d == e) = true ↔ ∀ c, d.contains c = true ↔ e.contains c = true := by
  change same d e = true ↔ _
  simp only [same, Bool.and_eq_true, beq_iff_eq, List.all_eq_true]
  constructor
  · rintro ⟨length, included⟩ c
    have inE : ∀ c, d.contains c = true → e.contains c = true := by
      intro c held
      obtain ⟨m, mem, eq⟩ := contains_iff.mp held
      exact contains_congr eq (included m mem)
    refine ⟨inE c, fun held => ?_⟩
    -- One more member than `d` has would be too many.
    by_contra missing
    obtain ⟨m, mem, eq⟩ := contains_iff.mp held
    have apart : (m :: d.members).Pairwise fun c d => (c == d) = false := by
      refine List.pairwise_cons.mpr ⟨fun n memN => ?_, d.distinct⟩
      rw [Bool.eq_false_iff]
      exact fun same => missing (contains_iff.mpr ⟨n, memN, BEq.trans (BEq.symm same) eq⟩)
    have shorter : (m :: d.members).length ≤ e.members.length := by
      refine Ordered.length_le_of_covered apart fun n memN => ?_
      rcases List.mem_cons.mp memN with rfl | memN
      · exact ⟨n, mem, BEq.rfl⟩
      · exact contains_iff.mp (included n memN)
    rw [List.length_cons, length] at shorter
    exact Nat.not_succ_le_self _ shorter
  · intro same
    have inE : ∀ m ∈ d.members, e.contains m = true := fun m mem =>
      (same m).mp (contains_iff.mpr ⟨m, mem, BEq.rfl⟩)
    have inD : ∀ m ∈ e.members, d.contains m = true := fun m mem =>
      (same m).mpr (contains_iff.mpr ⟨m, mem, BEq.rfl⟩)
    exact ⟨Nat.le_antisymm (length_le_of_contained inE) (length_le_of_contained inD), inE⟩

end Disjunction

/-! ## Inclusions -/

namespace Inclusion

/-- Whatever a conjunction allows is included, because it always is or because of a member that is
equal to the conjunction. -/
def Covers (c : Conjunction) : Inclusion → Prop
  | always => True
  | when d => d.contains c = true

/-- A property that holds of a merge exactly if it holds of one of its parts. -/
def Additive (τ : Inclusion → Prop) : Prop :=
  ∀ i j, τ (i.merge j) ↔ τ i ∨ τ j

theorem additive_holds (σ : Assignment) : Additive fun i => i.holds σ = true := by
  intro i j
  dsimp only
  rw [holds_merge, Bool.or_eq_true]

theorem additive_true : Additive fun _ => True :=
  fun _ _ => (or_self_iff).symm

theorem additive_always : Additive (· = always) := by
  intro i j
  cases i <;> cases j <;> simp [merge]

theorem additive_covers (c : Conjunction) : Additive (Covers c) := by
  intro i j
  cases i <;> cases j <;> simp [merge, Covers, Disjunction.contains_union]

/-- Inclusions are equal if both or none are unconditional, and they cover the same conjunctions. -/
theorem beq_iff {i j : Inclusion} :
    (i == j) = true ↔ (i = always ↔ j = always) ∧ ∀ c, i.Covers c ↔ j.Covers c := by
  cases i with
  | always => cases j <;> simp [BEq.beq, instBEqInclusion.beq, Covers]
  | when d =>
      cases j with
      | always => simp [BEq.beq, instBEqInclusion.beq]
      | when e =>
          change (d == e) = true ↔ _
          simp only [Disjunction.beq_iff, Covers, reduceCtorEq, true_and]

instance : EquivBEq Inclusion where
  rfl := beq_iff.mpr ⟨Iff.rfl, fun _ => Iff.rfl⟩
  symm h := beq_iff.mpr ⟨(beq_iff.mp h).1.symm, fun c => ((beq_iff.mp h).2 c).symm⟩
  trans h₁ h₂ := beq_iff.mpr ⟨(beq_iff.mp h₁).1.trans (beq_iff.mp h₂).1,
    fun c => ((beq_iff.mp h₁).2 c).trans ((beq_iff.mp h₂).2 c)⟩

/-! ## Guards -/

/-- A property of what an inclusion comes to under a guard. -/
def Under (guard : Inclusion) (τ : Inclusion → Prop) (i : Inclusion) : Prop :=
  ∃ j, i.under guard = some j ∧ τ j

theorem under_holds {σ : Assignment} {guard i : Inclusion} :
    Under guard (fun j => j.holds σ = true) i ↔ i.holds σ = true ∧ guard.holds σ = true := by
  rw [← Bool.and_eq_true, ← any_under, Option.any_eq_true]
  rfl

/-- A property that does not tell equal inclusions apart. -/
def Respects (τ : Inclusion → Prop) : Prop :=
  ∀ i j, (i == j) = true → τ i → τ j

theorem respects_true : Respects fun _ => True :=
  fun _ _ _ _ => trivial

theorem respects_always : Respects (· = always) :=
  fun _ _ same => (beq_iff.mp same).1.mp

theorem respects_covers (c : Conjunction) : Respects (Covers c) :=
  fun _ _ same => ((beq_iff.mp same).2 c).mp

/-- Equal disjunctions come to equal members. -/
theorem pairs_congr {d e : Disjunction} (h : (d == e) = true) (guard : Disjunction)
    {r : Conjunction} (mem : r ∈ pairs d guard) : ∃ r' ∈ pairs e guard, (r' == r) = true := by
  obtain ⟨c, memC, g, memG, merged⟩ := mem_pairs.mp mem
  have held : d.contains c = true := Disjunction.contains_iff.mpr ⟨c, memC, BEq.rfl⟩
  obtain ⟨c', memC', same⟩ := Disjunction.contains_iff.mp ((Disjunction.beq_iff.mp h c).mp held)
  obtain ⟨r', merged', same'⟩ := Conjunction.merge_congr (BEq.symm same) g merged
  exact ⟨r', mem_pairs.mpr ⟨c', memC', g, memG, merged'⟩, BEq.symm same'⟩

theorem restrict_congr {i j i' : Inclusion} (h : (i == j) = true) (guard : Disjunction)
    (restricted : i.restrict guard = some i') :
    ∃ j', j.restrict guard = some j' ∧ (i' == j') = true := by
  cases i with
  | always =>
      cases j with
      | always => exact ⟨i', restricted, BEq.rfl⟩
      | when e => cases (beq_iff.mp h).1.mp rfl
  | when d =>
      cases j with
      | always => cases (beq_iff.mp h).1.mpr rfl
      | when e =>
          have same : (d == e) = true := h
          rw [restrict_when] at restricted ⊢
          obtain ⟨d', first, rfl⟩ := Option.map_eq_some_iff.mp restricted
          cases second : Disjunction.ofList? (pairs e guard) with
          | none =>
              -- The list has a member for each one of the other, which has one at least.
              obtain ⟨r, rest, members⟩ := List.exists_cons_of_ne_nil (l := pairs d guard) fun none => by
                rw [none] at first
                cases first
              obtain ⟨r', mem, -⟩ := pairs_congr same guard (r := r) (by rw [members]; simp)
              cases held : pairs e guard with
              | nil => rw [held] at mem; cases mem
              | cons r' rest => rw [held] at second; cases second
          | some e' =>
              refine ⟨when e', rfl, Disjunction.beq_iff.mpr fun c => ?_⟩
              rw [Disjunction.contains_of_ofList? first, Disjunction.contains_of_ofList? second]
              constructor
              · rintro ⟨r, mem, eq⟩
                obtain ⟨r', mem', same'⟩ := pairs_congr same guard mem
                exact ⟨r', mem', BEq.trans same' eq⟩
              · rintro ⟨r, mem, eq⟩
                obtain ⟨r', mem', same'⟩ := pairs_congr (Disjunction.beq_iff.mpr fun c =>
                  (Disjunction.beq_iff.mp same c).symm) guard mem
                exact ⟨r', mem', BEq.trans same' eq⟩

/-- What equal inclusions come to under a guard is equal. -/
theorem Respects.under {τ : Inclusion → Prop} (h : Respects τ) (guard : Inclusion) :
    Respects (Under guard τ) := by
  rintro i j same ⟨i', restricted, held⟩
  cases guard with
  | always =>
      cases restricted
      exact ⟨j, rfl, h _ _ same held⟩
  | when d =>
      obtain ⟨j', restricted', same'⟩ := restrict_congr same d restricted
      exact ⟨j', restricted', h _ _ same' held⟩

end Inclusion
end SelectionGraph
