import SelectionGraph.Proofs.Inclusion.Laws

/-!
# Folding — what a list of directives comes to, exactly

Directives are read from left to right.  Reading stops at the first one that decides: a literal that
rules the selection out, or an argument that is no condition.  Whatever is read to the end comes to
what all directives mean together, so neither their order nor repetitions matter to the result.

* `Directive.RulesOut`, `Directive.Malformed`, `Directive.Passes` — what decides, and what never does;
* `Verdict.fails_iff`    — reading fails with the first malformed argument that it gets to;
* `Verdict.beq_of_holds` — verdicts are equal if they mean the same;
* `directives_are_folded_exactly` — all of it.

Where a malformed argument comes only after a literal that rules the selection out it is not noticed:
lists with the same directives may come to an error in one order and be skipped in another.
-/

namespace SelectionGraph

variable {σ : Assignment}

/-! ## Directives that decide -/

namespace Directive

/-- An `@include(if: false)` or `@skip(if: true)`. -/
def RulesOut (d : Directive) : Prop :=
  ∃ inverted, Verdict.polarity? d.name = some inverted ∧ d.argument? "if" = some (.boolean inverted)

/-- An `@include` or `@skip` whose `if` is missing or is neither a Boolean literal nor a variable. -/
def Malformed (d : Directive) (fault : ArgumentFault) : Prop :=
  (Verdict.polarity? d.name).isSome = true ∧
    match d.argument? "if" with
    | none => fault = .missing
    | some (.boolean _) => False
    | some (.var _) => False
    | some other => fault = .notCondition other

/-- A directive of another name, an `@include(if: true)` or a `@skip(if: false)`. -/
def Passes (d : Directive) : Prop :=
  ∀ inverted, Verdict.polarity? d.name = some inverted →
    d.argument? "if" = some (.boolean (!inverted))

/-- A directive passes if it never rules the selection out: a variable can be given the value that
does. -/
theorem passes_iff {d : Directive} : d.Passes ↔ ∀ σ, d.allows σ = true := by
  unfold Passes allows
  cases Verdict.polarity? d.name with
  | none => simp
  | some inverted =>
      constructor
      · intro passes σ
        rw [passes inverted rfl]
        cases inverted <;> rfl
      · intro allowed _ same
        cases same
        have there := allowed fun _ => inverted
        dsimp only at there
        split at there
        · rename_i value argument
          rw [argument, Bool.eq_not.mpr (bne_iff_ne.mp there)]
        · simp at there
        · cases there

/-- What all directives of a list allow depends on which directives there are only. -/
theorem allow_congr {ds es : List Directive} (same : ∀ d, d ∈ ds ↔ d ∈ es) :
    allow σ ds = allow σ es := by
  rw [Bool.eq_iff_iff, allow, allow, List.all_eq_true, List.all_eq_true]
  exact forall_congr' fun d => imp_congr_left (same d)

end Directive

/-! ## Reading -/

namespace Verdict

variable {d : Directive} {rest : List Directive} {conditions : List Condition}

/-- A literal decides. -/
theorem read_of_rulesOut (rulesOut : d.RulesOut) : read conditions (d :: rest) = .ok skipped := by
  obtain ⟨inverted, polarity, argument⟩ := rulesOut
  simp [read, polarity, argument]

/-- A malformed argument is an error. -/
theorem read_of_malformed {fault : ArgumentFault} (malformed : d.Malformed fault) :
    read conditions (d :: rest) = .error (.invalidArgument d.name "if" fault) := by
  obtain ⟨known, fits⟩ := malformed
  obtain ⟨inverted, polarity⟩ := Option.isSome_iff_exists.mp known
  rw [read, polarity]
  dsimp only
  split <;> simp_all

/-- Any other directive is read past, and may leave a condition. -/
theorem read_of_undecided (conditions : List Condition) (rest : List Directive)
    (stays : ¬ d.RulesOut) (fits : ∀ fault, ¬ d.Malformed fault) :
    ∃ more, read conditions (d :: rest) = read (conditions ++ more) rest := by
  unfold Directive.RulesOut at stays
  unfold Directive.Malformed at fits
  rw [read]
  cases polarity : polarity? d.name with
  | none => exact ⟨[], by rw [List.append_nil]⟩
  | some inverted =>
      rw [polarity] at stays fits
      cases argument : d.argument? "if" with
      | none => exact absurd ⟨rfl, by rw [argument]⟩ (fits .missing)
      | some value =>
          cases value with
          | boolean value =>
              have other : (value == inverted) = false :=
                beq_eq_false_iff_ne.mpr fun same => stays ⟨inverted, rfl, by rw [argument, same]⟩
              refine ⟨[], ?_⟩
              dsimp only
              rw [other, List.append_nil]
              rfl
          | var name => exact ⟨[⟨name, inverted⟩], rfl⟩
          | _ => exact absurd ⟨rfl, by rw [argument]⟩ (fits (.notCondition _))

/-- Reading fails with the first malformed argument, and no literal decides before it. -/
theorem first_malformed {ds : List Directive} {e : BuildError}
    (failed : read conditions ds = .error e) :
    ∃ before d after fault, ds = before ++ d :: after ∧ d.Malformed fault
      ∧ (∀ b ∈ before, ¬ b.RulesOut ∧ ∀ fault, ¬ b.Malformed fault)
      ∧ e = .invalidArgument d.name "if" fault := by
  induction ds generalizing conditions with
  | nil => cases failed
  | cons d rest ih =>
      by_cases rulesOut : d.RulesOut
      · rw [read_of_rulesOut rulesOut] at failed
        cases failed
      by_cases malformed : ∃ fault, d.Malformed fault
      · obtain ⟨fault, malformed⟩ := malformed
        rw [read_of_malformed malformed] at failed
        exact ⟨[], d, rest, fault, rfl, malformed, nofun, (Except.error.inj failed).symm⟩
      · have fits := not_exists.mp malformed
        obtain ⟨more, past⟩ := read_of_undecided conditions rest rulesOut fits
        rw [past] at failed
        obtain ⟨before, b, after, fault, rfl, found, undecided, cause⟩ := ih failed
        exact ⟨d :: before, b, after, fault, rfl, found,
          List.forall_mem_cons.mpr ⟨⟨rulesOut, fits⟩, undecided⟩, cause⟩

/-- Reading gets as far as a malformed argument, or one before it, unless a literal decides. -/
theorem fails_of_malformed {before after : List Directive} {fault : ArgumentFault}
    (undecided : ∀ b ∈ before, ¬ b.RulesOut) (malformed : d.Malformed fault) :
    ∃ e, read conditions (before ++ d :: after) = .error e := by
  induction before generalizing conditions with
  | nil => exact ⟨_, read_of_malformed malformed⟩
  | cons b before ih =>
      obtain ⟨stays, undecided⟩ := List.forall_mem_cons.mp undecided
      by_cases earlier : ∃ fault, b.Malformed fault
      · exact ⟨_, read_of_malformed earlier.choose_spec⟩
      · obtain ⟨more, past⟩ :=
          read_of_undecided conditions (before ++ d :: after) stays (not_exists.mp earlier)
        rw [List.cons_append, past]
        exact ih undecided

/-- Reading fails exactly if a malformed argument comes before all literals that rule out. -/
theorem fails_iff {ds : List Directive} :
    (∃ e, ofDirectives ds = .error e) ↔
      ∃ before d after fault, ds = before ++ d :: after ∧ d.Malformed fault
        ∧ ∀ b ∈ before, ¬ b.RulesOut := by
  constructor
  · rintro ⟨e, failed⟩
    obtain ⟨before, d, after, fault, split, malformed, undecided, -⟩ := first_malformed failed
    exact ⟨before, d, after, fault, split, malformed, fun b mem => (undecided b mem).1⟩
  · rintro ⟨before, d, after, fault, rfl, malformed, undecided⟩
    exact fails_of_malformed undecided malformed

/-! ## Results -/

variable {v w : Verdict}

theorem eq_included_iff : v = included ↔ ∀ σ, v.holds σ = true := by
  refine ⟨fun h _ => h ▸ rfl, fun always => ?_⟩
  cases v with
  | included => rfl
  | skipped => cases always fun _ => true
  | conditional c =>
      obtain ⟨σ, fails⟩ := c.exists_fails
      cases (always σ).symm.trans fails

theorem eq_skipped_iff : v = skipped ↔ ∀ σ, v.holds σ = false := by
  refine ⟨fun h _ => h ▸ rfl, fun never => ?_⟩
  cases v with
  | included => cases never fun _ => true
  | skipped => rfl
  | conditional c =>
      obtain ⟨σ, held⟩ := c.exists_holds
      cases held.symm.trans (never σ)

/-- Verdicts are equal if they mean the same: there is one way only to say it, up to order. -/
theorem beq_of_holds (same : ∀ σ, v.holds σ = w.holds σ) : (v == w) = true := by
  cases v with
  | included =>
      obtain rfl := eq_included_iff.mpr fun σ => (same σ).symm
      rfl
  | skipped =>
      obtain rfl := eq_skipped_iff.mpr fun σ => (same σ).symm
      rfl
  | conditional c =>
      cases w with
      | included => cases eq_included_iff.mpr same
      | skipped => cases eq_skipped_iff.mpr same
      | conditional d => exact Conjunction.beq_of_holds same

end Verdict

/-- Directives are folded exactly:
- there is an error exactly if some malformed argument comes before all literals that rule the
  selection out;
- otherwise the verdict is `skipped` exactly if the directives never hold together, `included` exactly
  if all of them are literals that hold, or have nothing to do with it, and a conjunction that holds
  exactly if all of them do in any other case;
- lists with the same directives, in whatever order and however often, have equal verdicts if they
  have any;
- and conjunctions are equal exactly if they come from directives that the same values satisfy. -/
theorem directives_are_folded_exactly :
    (∀ ds, (∃ e, Verdict.ofDirectives ds = .error e) ↔
      ∃ before d after fault, ds = before ++ d :: after ∧ d.Malformed fault
        ∧ ∀ b ∈ before, ¬ b.RulesOut)
    ∧ (∀ ds v, Verdict.ofDirectives ds = .ok v →
      (v = .skipped ↔ ∀ σ, Directive.allow σ ds = false)
      ∧ (v = .included ↔ ∀ d ∈ ds, d.Passes)
      ∧ (v = .skipped ∨ v = .included
        ∨ ∃ c, v = .conditional c ∧ ∀ σ, c.holds σ = Directive.allow σ ds))
    ∧ (∀ ds es v w, Verdict.ofDirectives ds = .ok v → Verdict.ofDirectives es = .ok w →
      (∀ d, d ∈ ds ↔ d ∈ es) → (v == w) = true)
    ∧ ∀ ds es c d, Verdict.ofDirectives ds = .ok (.conditional c) →
      Verdict.ofDirectives es = .ok (.conditional d) →
      ((c == d) = true ↔ ∀ σ, Directive.allow σ ds = Directive.allow σ es) := by
  refine ⟨fun ds => Verdict.fails_iff, fun ds v read => ?_, fun ds es v w read read' same => ?_,
    fun ds es c d read read' => ?_⟩
  · have means := fun σ => Verdict.holds_ofDirectives (σ := σ) read
    refine ⟨by simp only [Verdict.eq_skipped_iff, means], ?_, ?_⟩
    · simp only [Verdict.eq_included_iff, means, Directive.passes_iff, Directive.allow,
        List.all_eq_true]
      exact ⟨fun all d mem σ => all σ d mem, fun all σ d mem => all d mem σ⟩
    · cases v with
      | included => exact Or.inr (Or.inl rfl)
      | skipped => exact Or.inl rfl
      | conditional c => exact Or.inr (Or.inr ⟨c, rfl, means⟩)
  · refine Verdict.beq_of_holds fun σ => ?_
    rw [Verdict.holds_ofDirectives read, Verdict.holds_ofDirectives read',
      Directive.allow_congr same]
  · have left : ∀ σ, c.holds σ = Directive.allow σ ds := fun _ => Verdict.holds_ofDirectives read
    have right : ∀ σ, d.holds σ = Directive.allow σ es := fun _ => Verdict.holds_ofDirectives read'
    simp only [← left, ← right]
    exact ⟨fun same σ => Conjunction.holds_congr σ same, Conjunction.beq_of_holds⟩

/-- `@include(if: $a) @skip(if: $b)` in another order and with a directive repeated. -/
theorem repeated_directives_change_nothing :
    let includeA : Directive := ⟨"include", [⟨"if", .var "a"⟩]⟩
    let skipB : Directive := ⟨"skip", [⟨"if", .var "b"⟩]⟩
    ∃ v w, Verdict.ofDirectives [includeA, skipB] = .ok v
      ∧ Verdict.ofDirectives [skipB, includeA, skipB] = .ok w ∧ (v == w) = true := by
  intro includeA skipB
  refine ⟨_, _, rfl, rfl, directives_are_folded_exactly.2.2.1 [includeA, skipB]
    [skipB, includeA, skipB] _ _ rfl rfl fun d => ?_⟩
  grind

end SelectionGraph
