import SelectionGraph.Proofs.Inclusion.Laws
import SelectionGraph.Proofs.Language.Spelled

/-!
# DirectiveText — conditions that are written as directives are read back

A conjunction is written as one `@include` or `@skip` for each of its conditions, in their order.
Behind a field this text is read as the directives of the field, and reading these comes to the same
conjunction: no two of its conditions are on one variable, so none is dropped and none contradicts
another.

* `Condition.directive`, `Condition.spelling`  — the directive of a condition, and its tokens;
* `Condition.spells_directiveText`             — the text of a condition has these tokens;
* `Verdict.ofDirectives_conditions`            — the directives of a conjunction come to it;
* `Conjunction.ReadFrom`                       — a conjunction is read from a text behind a field;
* `directive_texts_are_read_back`              — every conjunction is read from its own text.

The text of a disjunction with several members is no directive list, since the expression that it has
in the place of a variable is not one of the language.
-/

namespace SelectionGraph

/-! ## The directive of a condition -/

namespace Condition

/-- The name of the directive that requires a condition. -/
def directiveName (x : Condition) : Name :=
  if x.isInverted then "skip" else "include"

/-- The directive that requires a condition. -/
def directive (x : Condition) : Directive :=
  ⟨x.directiveName, [⟨"if", .var x.name⟩]⟩

/-- The tokens of the directive, behind its mark. -/
def spelling (x : Condition) : List Token :=
  [.name x.directiveName, Grammar.mark '(', .name "if", Grammar.mark ':', Grammar.mark '$',
    .name x.name, Grammar.mark ')']

theorem directiveText_toList (x : Condition) : x.directiveText.toList
    = ' ' :: '@' :: (x.directiveName.toList ++ '(' :: ("if".toList ++ ':' :: ' ' :: '$' ::
        (x.name.toList ++ [')']))) := by
  unfold directiveText directiveName
  cases x.isInverted <;> simp [String.toList_append]

theorem spelled_directive (x : Condition) : Directive.Spelled x.spelling x.directive :=
  Directive.spelled_variable x.directiveName "if" x.name

/-- The text of a condition has the tokens of its directive. -/
theorem spells_directiveText {x : Condition} (named : Token.IsName x.name) :
    Token.Spells x.directiveText.toList (Grammar.mark '@' :: x.spelling) := by
  have variable_ : Token.Spells ('$' :: (x.name.toList ++ [')']))
      [Grammar.mark '$', .name x.name, Grammar.mark ')'] :=
    .mark (by decide) (.name named (by decide) (.mark (by decide) .nil))
  have argument : Token.Spells ("if".toList ++ ':' :: ' ' :: '$' :: (x.name.toList ++ [')']))
      [.name "if", Grammar.mark ':', Grammar.mark '$', .name x.name, Grammar.mark ')'] :=
    .name (by decide) (by decide) (.mark (by decide) (.ignored (by decide) variable_))
  have directiveNamed : Token.IsName x.directiveName := by
    unfold directiveName
    cases x.isInverted <;> decide
  rw [directiveText_toList]
  exact .ignored (by decide) (.mark (by decide)
    (.name directiveNamed (by decide) (.mark (by decide) argument)))

end Condition

/-! ## Reading directives -/

namespace Verdict

/-- Directives of conditions are read as these, in their order. -/
theorem read_directives (conditions more : List Condition) :
    read conditions (more.map Condition.directive) = .ok (allOf (conditions ++ more)) := by
  induction more generalizing conditions with
  | nil => rw [List.append_nil]; rfl
  | cons x more ih =>
      have known : polarity? x.directive.name = some x.isInverted := by
        unfold Condition.directive Condition.directiveName
        cases x.isInverted <;> rfl
      have argument : x.directive.argument? "if" = some (.var x.name) := rfl
      rw [List.map_cons, read, known]
      dsimp only
      rw [argument]
      dsimp only
      rw [ih, ← List.append_cons]

/-- The directives of a conjunction come to it. -/
theorem ofDirectives_conditions (c : Conjunction) :
    ofDirectives (c.conditions.map Condition.directive) = .ok (.conditional c) := by
  rw [ofDirectives, read_directives, List.nil_append, allOf_conditions]

/-- Nothing is gathered but what there was and the conditions themselves. -/
theorem mem_of_gather {gathered conditions result : List Condition}
    (h : gather gathered conditions = some result) {x : Condition} (mem : x ∈ result) :
    x ∈ gathered ∨ x ∈ conditions := by
  induction conditions generalizing gathered with
  | nil =>
      cases h
      exact .inl mem
  | cons y rest ih =>
      rw [gather] at h
      split at h
      · split at h
        · exact (ih h).imp id (List.mem_cons_of_mem y)
        · cases h
      · rcases ih h with before | later
        · rcases List.mem_append.mp before with before | here
          · exact .inl before
          · exact .inr (List.mem_singleton.mp here ▸ List.mem_cons_self)
        · exact .inr (List.mem_cons_of_mem y later)

/-- A conjunction has no condition but those that came to it. -/
theorem mem_of_allOf {conditions : List Condition} {c : Conjunction}
    (h : allOf conditions = .conditional c) {x : Condition} (mem : x ∈ c.conditions) :
    x ∈ conditions := by
  unfold allOf at h
  split at h
  · cases h
  · cases h
  · rename_i gathered
    cases h
    exact (mem_of_gather gathered mem).resolve_left nofun

end Verdict

/-! ## Reading back -/

namespace Conjunction

/-- A conjunction whose variables have names of the language. -/
def Named (c : Conjunction) : Prop :=
  ∀ x ∈ c.conditions, Token.IsName x.name

/-- Behind a field a text is read as directives that come to a conjunction, which is equal to this
one, with as many conditions and in the same order. -/
def ReadFrom (c : Conjunction) (schema : Schema) (field : Name) (text : String) : Prop :=
  ∃ ds c', Directive.readBehind? schema field text = some ds
    ∧ Verdict.ofDirectives ds = .ok (.conditional c')
    ∧ (c' == c) = true ∧ c'.size = c.size ∧ c'.conditions = c.conditions

variable {schema : Schema} {root field : Name} {found : FieldDefinition} {c d : Conjunction}

/-- The text of a conjunction is read as the directives of its conditions. -/
theorem readBehind?_directiveText (queried : schema.root? .query = some root)
    (known : schema.fieldOf? root field = some found) (behind : Token.IsName field)
    (named : c.Named) : Directive.readBehind? schema field c.directiveText
      = some (c.conditions.map Condition.directive) := by
  have spelled : ∀ x ∈ c.conditions, Directive.Spelled x.spelling x.directive :=
    fun x _ => x.spelled_directive
  refine Directive.readBehind?_of_spelled queried known behind ?_ ?_ spelled
  · exact fun x _ => ⟨_, x.directiveText_toList⟩
  · exact fun x mem => Condition.spells_directiveText (named x mem)

theorem readFrom_directiveText (queried : schema.root? .query = some root)
    (known : schema.fieldOf? root field = some found) (behind : Token.IsName field)
    (named : c.Named) : c.ReadFrom schema field c.directiveText :=
  ⟨_, c, readBehind?_directiveText queried known behind named, Verdict.ofDirectives_conditions c,
    BEq.rfl, rfl, rfl⟩

/-- What is read from one text is one conjunction. -/
theorem ReadFrom.beq {text : String} (h : c.ReadFrom schema field text)
    (h' : d.ReadFrom schema field text) : (c == d) = true := by
  obtain ⟨ds, c', read, verdict, same, -, -⟩ := h
  obtain ⟨ds', d', read', verdict', same', -, -⟩ := h'
  cases Option.some.inj (read.symm.trans read')
  cases Except.ok.inj (verdict.symm.trans verdict')
  exact BEq.trans (BEq.symm same) same'

end Conjunction

/-- Conjunctions that are put together from conditions on variables with names of the language are
written as directives which, behind any field that the query root has, are read and come to the same
conjunction, with its conditions in their order.  A disjunction with one member is written as that
member is, and so is read back too.  Conjunctions that are written alike are equal. -/
theorem directive_texts_are_read_back (schema : Schema) (root field : Name) (found : FieldDefinition)
    (queried : schema.root? .query = some root) (known : schema.fieldOf? root field = some found)
    (behind : Token.IsName field) :
    (∀ conditions c, (∀ x ∈ conditions, Token.IsName x.name) →
      Verdict.allOf conditions = .conditional c →
        c.ReadFrom schema field c.directiveText
        ∧ ∀ d : Disjunction, d.members = [c] →
          d.directiveText = c.directiveText ∧ c.ReadFrom schema field d.directiveText)
    ∧ ∀ conditions others c d, (∀ x ∈ conditions, Token.IsName x.name) →
      (∀ x ∈ others, Token.IsName x.name) → Verdict.allOf conditions = .conditional c →
      Verdict.allOf others = .conditional d → c.directiveText = d.directiveText → (c == d) = true := by
  have reads : ∀ conditions c, (∀ x ∈ conditions, Token.IsName x.name) →
      Verdict.allOf conditions = .conditional c → c.ReadFrom schema field c.directiveText := by
    intro conditions c named together
    refine Conjunction.readFrom_directiveText queried known behind fun x mem => ?_
    exact named x (Verdict.mem_of_allOf together mem)
  constructor
  · intro conditions c named together
    refine ⟨reads conditions c named together, fun d single => ?_⟩
    have same : d.directiveText = c.directiveText := by
      rw [Disjunction.directiveText, single]
    exact ⟨same, same ▸ reads conditions c named together⟩
  · intro conditions others c d named named' together together' alike
    exact (reads conditions c named together).beq (alike ▸ reads others d named' together')

/-- `@include(if: $a) @skip(if: $b)` behind a field `size` of the query root, written for the two
conditions with the first of them repeated. -/
theorem texts_of_two_conditions_are_read_back :
    let size : FieldDefinition := ⟨none, "size", [], .named "Int", []⟩
    let schema : Schema := ⟨[⟨"Query", .object, [size]⟩], [(.query, "Query")], none⟩
    let conditions : List Condition := [⟨"a", false⟩, ⟨"b", true⟩, ⟨"a", false⟩]
    ∃ c, Verdict.allOf conditions = .conditional c
      ∧ c.directiveText = " @include(if: $a) @skip(if: $b)"
      ∧ c.ReadFrom schema "size" (Disjunction.single c).directiveText := by
  intro size schema conditions
  have back := directive_texts_are_read_back schema "Query" "size" size rfl rfl (by decide)
  refine ⟨_, rfl, rfl, ?_⟩
  exact ((back.1 conditions _ (by decide) rfl).2 (Disjunction.single _) rfl).2

end SelectionGraph
