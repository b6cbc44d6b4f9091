import SelectionGraph.Proofs.Direct.Address
import SelectionGraph.Schema.View

/-!
# Selects — what a document selects under given values

A path is a list of steps, each a response key with the type conditions that were entered since the
last one.

* `Selects`     — the document selects a path: every directive on the way holds;
* `StandsAll`   — a selection of a definition stands at an address and is included itself;
* `Followed`    — a path can be followed from address to address, each with a selection that is
  included itself;
* `Selects.followed` — what the document selects can be followed.

A path can be followed where several selections of the same key share the work: one may be included
and another may select what is below it.
-/

namespace SelectionGraph

/-! ## Paths -/

/-- A response key, and the type conditions entered since the one before. -/
structure Step where
  entered : List Name
  key : Name
  deriving DecidableEq, Repr

/-- The type conditions entered, after one more; the type selected on already does not count. -/
def entering (entered : List Name) (type condition : Name) : List Name :=
  if condition == type then entered else entered ++ [condition]

theorem entering_self (entered : List Name) (type : Name) : entering entered type type = entered := by
  simp [entering]

/-- The type that a field selects on, if it selects on one. -/
def SchemaView.typeBelow (view : SchemaView) (type : TypeRef) : Option Name :=
  match view.isComposite type.innerName with
  | .ok true => some type.innerName
  | _ => none

theorem SchemaView.typeBelow_eq {view : SchemaView} {type : TypeRef}
    (h : view.isComposite type.innerName = .ok true) : view.typeBelow type = some type.innerName := by
  rw [typeBelow, h]

/-- The deferral that a directive list says; where it cannot be read, it says none. -/
def Deferral.said (directives : List Directive) : Deferral :=
  (ofDirectives directives).toOption.getD immediate

theorem Deferral.said_eq {directives : List Directive} {deferral : Deferral}
    (h : ofDirectives directives = .ok deferral) : said directives = deferral := by
  rw [said, h]
  rfl

/-- Selections on `type` select a path, under values for which every `@include` and `@skip` on the
way holds.  Spreads stand for their fragments, and only fields of composite type select below. -/
inductive Selects (view : SchemaView) (document : Document) (σ : Assignment) :
    Name → List Name → List Selection → List Step → Prop
  | key {type : Name} {entered : List Name} {ss : List Selection} {f : FieldSelection}
      (mem : .field f ∈ ss) (allowed : Directive.allow σ f.directives = true) :
      Selects view document σ type entered ss [⟨entered, f.responseKey⟩]
  | field {type : Name} {entered : List Name} {ss : List Selection} {f : FieldSelection}
      {path : List Step} (mem : .field f ∈ ss) (allowed : Directive.allow σ f.directives = true)
      (isComposite : view.isComposite f.type.innerName = .ok true)
      (below : Selects view document σ f.type.innerName [] f.selections path) :
      Selects view document σ type entered ss (⟨entered, f.responseKey⟩ :: path)
  | inline {type : Name} {entered : List Name} {ss selections : List Selection}
      {condition : Option Name} {directives : List Directive} {path : List Step}
      (mem : .inlineFragment condition directives selections ∈ ss)
      (allowed : Directive.allow σ directives = true)
      (inside : Selects view document σ (condition.getD type)
        (entering entered type (condition.getD type)) selections path) :
      Selects view document σ type entered ss path
  | spread {type : Name} {entered : List Name} {ss : List Selection} {name : Name}
      {directives : List Directive} {f : Sourced FragmentDefinition} {path : List Step}
      (mem : .fragmentSpread name directives ∈ ss) (allowed : Directive.allow σ directives = true)
      (defined : document.fragment? name = some f)
      (inside : Selects view document σ f.definition.typeCondition
        (entering entered type f.definition.typeCondition) f.definition.selections path) :
      Selects view document σ type entered ss path

/-- Where only fields are included, a path is selected through one that has its first key. -/
theorem Selects.through_field {view : SchemaView} {document : Document} {σ : Assignment}
    {type : Name} {entered : List Name} {ss : List Selection} {step : Step} {rest : List Step}
    (h : Selects view document σ type entered ss (step :: rest))
    (fields : ∀ s ∈ ss, Directive.allow σ s.directives = true → ∃ f, s = .field f) :
    ∃ f, .field f ∈ ss ∧ f.responseKey = step.key ∧ Directive.allow σ f.directives = true
      ∧ (rest = [] ∨ Selects view document σ f.type.innerName [] f.selections rest) := by
  generalize whole : step :: rest = path at h
  cases h with
  | @key _ _ _ f mem allowed =>
      cases whole
      exact ⟨f, mem, rfl, allowed, Or.inl rfl⟩
  | @field _ _ _ f _ mem allowed _ below =>
      cases whole
      exact ⟨f, mem, rfl, allowed, Or.inr below⟩
  | inline mem allowed =>
      obtain ⟨f, same⟩ := fields _ mem allowed
      cases same
  | spread mem allowed =>
      obtain ⟨f, same⟩ := fields _ mem allowed
      cases same

/-! ## Addresses in a definition -/

mutual

/-- A selection on `type`, or one inside it, stands at an address and is included itself.  The
directives of what it stands in have to be such that they can hold; they need not hold. -/
def Selection.Stands (view : SchemaView) (document : Document) (σ : Assignment) (type : Name)
    (address : List Turn) : Selection → Prop
  | .field ⟨label, definition, arguments, directives, selections⟩ =>
      let f : FieldSelection := ⟨label, definition, arguments, directives, selections⟩
      (∃ own, Inclusion.ofDirectives directives = .ok (some own))
        ∧ ∃ rest, address = .field f.responseKey (view.typeBelow f.type) :: rest
          ∧ (rest = [] ∧ Directive.allow σ directives = true
            ∨ ∃ inner, view.typeBelow f.type = some inner
              ∧ StandsAll view document σ inner rest selections)
  | .inlineFragment condition directives selections =>
      let inner := condition.getD type
      let deferral := Deferral.said directives
      ∃ verdict conditions, Verdict.ofDirectives directives = .ok verdict
        ∧ verdict.scope? = some conditions
        ∧ if inner == type && conditions.isNone && !deferral.isDeferred then
            StandsAll view document σ type address selections
          else ∃ scope rest, address = .scope scope deferral :: rest
            ∧ ((⟨inner, conditions⟩ : Scope) == scope) = true
            ∧ (rest = [] ∧ scope.holds σ = true ∨ StandsAll view document σ inner rest selections)
  | .fragmentSpread name directives =>
      (∃ own, Inclusion.ofDirectives directives = .ok (some own))
        ∧ ∃ f, document.fragment? name = some f
          ∧ if f.definition.typeCondition == type then
              address = [.spread name (.said directives)] ∧ Directive.allow σ directives = true
            else ∃ scope rest, address = .scope scope .immediate :: rest
              ∧ ((⟨f.definition.typeCondition, none⟩ : Scope) == scope) = true
              ∧ (rest = [] ∧ scope.holds σ = true
                ∨ rest = [.spread name (.said directives)] ∧ Directive.allow σ directives = true)

/-- One of several selections stands at an address and is included itself. -/
def StandsAll (view : SchemaView) (document : Document) (σ : Assignment) (type : Name)
    (address : List Turn) : List Selection → Prop
  | [] => False
  | s :: ss => s.Stands view document σ type address ∨ StandsAll view document σ type address ss

end

variable {view : SchemaView} {document : Document} {σ : Assignment}

/-- A field stands at its key, and what it selects stands below. -/
theorem stands_field {type : Name} {address : List Turn} {f : FieldSelection} :
    (Selection.field f).Stands view document σ type address
      ↔ (∃ own, Inclusion.ofDirectives f.directives = .ok (some own))
        ∧ ∃ rest, address = .field f.responseKey (view.typeBelow f.type) :: rest
          ∧ (rest = [] ∧ Directive.allow σ f.directives = true
            ∨ ∃ inner, view.typeBelow f.type = some inner
              ∧ StandsAll view document σ inner rest f.selections) := by
  cases f
  rw [Selection.Stands]

theorem standsAll_of_mem {type : Name} {address : List Turn} {s : Selection} {ss : List Selection}
    (mem : s ∈ ss) (stands : s.Stands view document σ type address) :
    StandsAll view document σ type address ss := by
  induction ss with
  | nil => cases mem
  | cons t ss ih =>
      rw [StandsAll]
      rcases List.mem_cons.mp mem with rfl | later
      · exact Or.inl stands
      · exact Or.inr (ih later)

/-- A field that is included stands at its key, and below it what it selects. -/
theorem standsAll_of_field {type inner : Name} {ss : List Selection} {f : FieldSelection}
    (mem : .field f ∈ ss) (allowed : Directive.allow σ f.directives = true)
    (typed : view.typeBelow f.type = some inner) {rest : List Turn}
    (here : rest = [] ∨ StandsAll view document σ inner rest f.selections) :
    StandsAll view document σ type (.field f.responseKey (some inner) :: rest) ss := by
  obtain ⟨own, read, -⟩ := Inclusion.of_allow allowed
  refine standsAll_of_mem mem (stands_field.mpr ⟨⟨own, read⟩, rest, by rw [typed], ?_⟩)
  rcases here with none | below
  · exact Or.inl ⟨none, allowed⟩
  · exact Or.inr ⟨inner, typed, below⟩

/-- An inline fragment that is included stands at the scope it opens, and inside it what it
selects. -/
theorem standsAll_of_inline {type : Name} {ss selections : List Selection}
    {condition : Option Name} {directives : List Directive} {verdict : Verdict}
    {conditions : Option Conjunction} (mem : .inlineFragment condition directives selections ∈ ss)
    (read : Verdict.ofDirectives directives = .ok verdict)
    (scope : verdict.scope? = some conditions)
    (opens : ¬ (condition.getD type == type && conditions.isNone
      && !(Deferral.said directives).isDeferred) = true)
    (holds : conditions.all (Conjunction.holds σ) = true) {rest : List Turn}
    (here : rest = [] ∨ StandsAll view document σ (condition.getD type) rest selections) :
    StandsAll view document σ type
      (.scope ⟨condition.getD type, conditions⟩ (.said directives) :: rest) ss := by
  refine standsAll_of_mem mem ?_
  rw [Selection.Stands]
  refine ⟨verdict, conditions, read, scope, (if_neg opens).mpr ⟨_, rest, rfl, BEq.rfl, ?_⟩⟩
  exact here.imp_left fun none => ⟨none, holds⟩

/-- A spread that is included stands in the scope that the type condition of its fragment opens. -/
theorem standsAll_of_spread {type name : Name} {ss : List Selection} {directives : List Directive}
    {f : Sourced FragmentDefinition} (mem : .fragmentSpread name directives ∈ ss)
    (allowed : Directive.allow σ directives = true) (defined : document.fragment? name = some f)
    (opens : ¬ (f.definition.typeCondition == type) = true) {rest : List Turn}
    (here : rest = [] ∨ rest = [.spread name (.said directives)]) :
    StandsAll view document σ type (.scope ⟨f.definition.typeCondition, none⟩ .immediate :: rest)
      ss := by
  obtain ⟨own, read, -⟩ := Inclusion.of_allow allowed
  refine standsAll_of_mem mem ?_
  rw [Selection.Stands]
  refine ⟨⟨own, read⟩, f, defined, (if_neg opens).mpr ⟨_, rest, rfl, BEq.rfl, ?_⟩⟩
  exact here.imp (fun none => ⟨none, rfl⟩) fun one => ⟨one, allowed⟩

/-- A path can be followed from an address of the definition with selections `ss` on `root`: at each
turn a selection stands that is included itself. -/
inductive Followed (view : SchemaView) (document : Document) (σ : Assignment) :
    Name → List Selection → List Turn → Name → List Name → List Step → Prop
  | key {root type : Name} {ss : List Selection} {address : List Turn} {entered : List Name}
      {key : Name} {below : Option Name}
      (stands : StandsAll view document σ root (address ++ [.field key below]) ss) :
      Followed view document σ root ss address type entered [⟨entered, key⟩]
  | field {root type inner : Name} {ss : List Selection} {address : List Turn}
      {entered : List Name} {key : Name} {path : List Step}
      (stands : StandsAll view document σ root (address ++ [.field key (some inner)]) ss)
      (below : Followed view document σ root ss (address ++ [.field key (some inner)]) inner [] path) :
      Followed view document σ root ss address type entered (⟨entered, key⟩ :: path)
  | scope {root type : Name} {ss : List Selection} {address : List Turn} {entered : List Name}
      {scope : Scope} {deferral : Deferral} {path : List Step}
      (stands : StandsAll view document σ root (address ++ [.scope scope deferral]) ss)
      (inside : Followed view document σ root ss (address ++ [.scope scope deferral])
        scope.typeCondition (entering entered type scope.typeCondition) path) :
      Followed view document σ root ss address type entered path
  | spread {root type : Name} {ss : List Selection} {address : List Turn} {entered : List Name}
      {name : Name} {deferral : Deferral} {f : Sourced FragmentDefinition} {path : List Step}
      (stands : StandsAll view document σ root (address ++ [.spread name deferral]) ss)
      (defined : document.fragment? name = some f)
      (inside : Followed view document σ f.definition.typeCondition f.definition.selections []
        f.definition.typeCondition (entering entered type f.definition.typeCondition) path) :
      Followed view document σ root ss address type entered path

/-- What the document selects can be followed: all that is on the way is included itself.  The
induction carries how addresses in `ss` continue those of the definition. -/
theorem Selects.followed {root type : Name} {entered : List Name} {all ss : List Selection}
    {path : List Step} (h : Selects view document σ type entered ss path) {before : List Turn}
    (within : ∀ address, StandsAll view document σ type address ss →
      StandsAll view document σ root (before ++ address) all) :
    Followed view document σ root all before type entered path := by
  induction h generalizing root all before with
  | @key type entered ss f mem allowed =>
      obtain ⟨own, read, -⟩ := Inclusion.of_allow allowed
      exact .key (within _ (standsAll_of_mem mem
        (stands_field.mpr ⟨⟨own, read⟩, [], rfl, Or.inl ⟨rfl, allowed⟩⟩)))
  | @field type entered ss f path mem allowed isComposite _ ih =>
      -- What stands below the field stands below its key in the whole set.
      have typed := SchemaView.typeBelow_eq isComposite
      refine .field (within _ (standsAll_of_field mem allowed typed (Or.inl rfl))) ?_
      refine ih fun address below => ?_
      rw [List.append_assoc]
      exact within _ (standsAll_of_field mem allowed typed (Or.inr below))
  | @inline type entered ss selections condition directives path mem allowed _ ih =>
      obtain ⟨verdict, conditions, read, scope, holds⟩ := Verdict.of_allow allowed
      by_cases flat : (condition.getD type == type && conditions.isNone
          && !(Deferral.said directives).isDeferred) = true
      · -- The fragment is part of the set it stands in.
        have same : condition.getD type = type := by
          simp only [Bool.and_eq_true, beq_iff_eq] at flat
          exact flat.1.1
        rw [same, entering_self] at ih
        refine ih fun address inside => within address (standsAll_of_mem mem ?_)
        rw [Selection.Stands]
        exact ⟨verdict, conditions, read, scope, (if_pos flat).mpr inside⟩
      · refine .scope (within _ (standsAll_of_inline mem read scope flat holds (Or.inl rfl))) ?_
        refine ih fun address inside => ?_
        rw [List.append_assoc]
        exact within _ (standsAll_of_inline mem read scope flat holds (Or.inr inside))
  | @spread type entered ss name directives f path mem allowed defined _ ih =>
      by_cases same : (f.definition.typeCondition == type) = true
      · obtain ⟨own, read, -⟩ := Inclusion.of_allow allowed
        have stands : StandsAll view document σ type [.spread name (.said directives)] ss := by
          refine standsAll_of_mem mem ?_
          rw [Selection.Stands]
          exact ⟨⟨own, read⟩, f, defined, (if_pos same).mpr ⟨rfl, allowed⟩⟩
        exact .spread (within _ stands) defined (ih fun address => id)
      · -- The spread stands in the scope that its type condition opens.
        have second := within _ (standsAll_of_spread mem allowed defined same (Or.inr rfl))
        rw [List.append_cons] at second
        refine .scope (within _ (standsAll_of_spread mem allowed defined same (Or.inl rfl))) ?_
        refine .spread second defined ?_
        rw [entering_self]
        exact ih fun address => id

end SelectionGraph
