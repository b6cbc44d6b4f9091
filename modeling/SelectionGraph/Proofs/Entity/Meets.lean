import SelectionGraph.Proofs.Document.Selects
import SelectionGraph.Proofs.Session.Walked

/-!
# Meets — the selections of a definition with its fragments written out

A spread can be read as standing for the selections of its fragment.  Read so, a definition selects
in one walk, which carries the entity and the scope it is in, the type selected on, and the
conditions of the spreads that it has entered since the entity.

* `Place`, `Place.below`, `Place.enter`, `Place.follow` — where the walk is, and where it goes;
* `Meets`            — the walk from a place meets a field or a spread;
* `Reaches`, `Occurs` — the entities that are reached, and what is selected on them under given
  values;
* `Place.lift`, `meets_lift` — walking a fragment below a spread is walking it by itself, moved there.
-/

namespace SelectionGraph

/-- The slot that a field or a spread takes in a tree. -/
def Selection.slot? : Selection → Option Slot
  | .field f => some (.field f.responseKey)
  | .inlineFragment _ _ _ => none
  | .fragmentSpread name _ => some (.fragment name)

/-! ## Places -/

/-- Where a walk is. -/
structure Place where
  entity : FieldPath
  scope : ScopePath
  type : Name
  guards : List Inclusion

namespace Place

/-- The root of a definition on a type. -/
def root (type : Name) : Place :=
  ⟨.root, .root, type, []⟩

/-- Inside a field.  What guards the field does not guard its selections. -/
def below (p : Place) (f : FieldSelection) : Place :=
  ⟨p.entity.append ⟨f.responseKey, f.type⟩, .root, f.type.innerName, []⟩

/-- Inside an inline fragment. -/
def enter (p : Place) (condition : Option Name) (conditions : Option Conjunction)
    (deferral : Deferral) : Place :=
  let type := condition.getD p.type
  if type == p.type && conditions.isNone && !deferral.isDeferred then p
  else { p with scope := p.scope.append ⟨type, conditions⟩, type }

/-- Inside a fragment that is spread under a guard. -/
def follow (p : Place) (typeCondition : Name) (guard : Inclusion) : Place where
  entity := p.entity
  scope := if typeCondition == p.type then p.scope else p.scope.append ⟨typeCondition, none⟩
  type := typeCondition
  guards := guard :: p.guards

/-- A place of a fragment as it is reached from the place of a spread. -/
def lift (site p : Place) : Place where
  entity := site.entity.appendAll p.entity.components
  scope := if p.entity.isRoot then site.scope.concat p.scope else p.scope
  type := p.type
  guards := if p.entity.isRoot then p.guards ++ site.guards else p.guards

theorem lift_below (site p : Place) (f : FieldSelection) :
    site.lift (p.below f) = (site.lift p).below f := by
  rw [lift, below, FieldPath.isRoot_append, FieldPath.appendAll_append]
  rfl

theorem concat_append (q r : ScopePath) (scope : Scope) :
    q.concat (r.append scope) = (q.concat r).append scope := by
  simp [ScopePath.concat, ScopePath.append]

theorem lift_enter (site p : Place) (condition : Option Name) (conditions : Option Conjunction)
    (deferral : Deferral) :
    site.lift (p.enter condition conditions deferral)
      = (site.lift p).enter condition conditions deferral := by
  by_cases flat : (condition.getD p.type == p.type && conditions.isNone && !deferral.isDeferred)
      = true
  · simp [enter, lift, flat]
  · -- A scope is appended behind that of the site, or to a scope of its own.
    simp only [enter, lift, flat, Bool.false_eq_true, if_false, Place.mk.injEq, true_and, and_true]
    split
    · exact concat_append _ _ _
    · rfl

theorem lift_follow (site p : Place) (typeCondition : Name) (guard : Inclusion) :
    site.lift (p.follow typeCondition guard) = (site.lift p).follow typeCondition guard := by
  simp only [follow, lift, Place.mk.injEq, true_and]
  by_cases root : p.entity.isRoot = true <;> by_cases same : (typeCondition == p.type) = true <;>
    simp [root, same, concat_append]

theorem lift_root {site : Place} {type : Name} (typed : site.type = type) :
    site.lift (root type) = site := by
  cases site
  subst typed
  have here : FieldPath.root.isRoot = true := rfl
  simp [lift, root, here]

end Place

/-! ## The walk -/

/-- Walking selections from `p` meets `s`, a field or a spread, at `q`; the condition of `s` itself
is `c`.  Selections that are never included are passed over with everything below them. -/
inductive Meets (view : SchemaView) (document : Document) :
    Place → List Selection → Place → Selection → Inclusion → Prop
  | here {p : Place} {ss : List Selection} {s : Selection} {c : Inclusion} (mem : s ∈ ss)
      (slot : s.slot?.isSome = true)
      (included : Inclusion.ofDirectives s.directives = .ok (some c)) : Meets view document p ss p s c
  | field {p q : Place} {ss : List Selection} {f : FieldSelection} {s : Selection}
      {own c : Inclusion} (mem : .field f ∈ ss)
      (included : Inclusion.ofDirectives f.directives = .ok (some own))
      (isComposite : view.isComposite f.type.innerName = .ok true)
      (inner : Meets view document (p.below f) f.selections q s c) : Meets view document p ss q s c
  | inline {p q : Place} {ss selections : List Selection} {condition : Option Name}
      {directives : List Directive} {verdict : Verdict} {conditions : Option Conjunction}
      {s : Selection} {c : Inclusion}
      (mem : .inlineFragment condition directives selections ∈ ss)
      (read : Verdict.ofDirectives directives = .ok verdict)
      (scope : verdict.scope? = some conditions)
      (inner : Meets view document (p.enter condition conditions (.said directives)) selections q s c) :
      Meets view document p ss q s c
  | spread {p q : Place} {ss : List Selection} {name : Name} {directives : List Directive}
      {guard : Inclusion} {f : Sourced FragmentDefinition} {s : Selection} {c : Inclusion}
      (mem : .fragmentSpread name directives ∈ ss)
      (included : Inclusion.ofDirectives directives = .ok (some guard))
      (defined : document.fragment? name = some f)
      (inner : Meets view document (p.follow f.definition.typeCondition guard)
        f.definition.selections q s c) : Meets view document p ss q s c

variable {view : SchemaView} {document : Document}

/-- Among what is met, `met`, is a field that selects the entity at a path. -/
def Reaches (view : SchemaView) (met : Place → Selection → Inclusion → Prop) (path : FieldPath) :
    Prop :=
  ∃ q f c, met q (.field f) c ∧ view.isComposite f.type.innerName = .ok true
    ∧ path = (q.below f).entity

/-- Among what is met is a selection on an entity, in a scope, with all conditions holding that apply
there: its own and those of the spreads it is reached through. -/
def Occurs (met : Place → Selection → Inclusion → Prop) (σ : Assignment) (path : FieldPath)
    (scope : ScopePath) (slot : Slot) : Prop :=
  ∃ q s c, met q s c ∧ s.slot? = some slot ∧ q.entity = path ∧ (q.scope == scope) = true
    ∧ c.holds σ = true ∧ ∀ g ∈ q.guards, g.holds σ = true

section Occurs

variable {met met' : Place → Selection → Inclusion → Prop} {σ : Assignment} {path : FieldPath}
  {scope : ScopePath} {slot : Slot} {P : Place → Selection → Inclusion → Prop}

/-- Something that is met has a property. -/
def SomeMet (met P : Place → Selection → Inclusion → Prop) : Prop :=
  ∃ q s c, met q s c ∧ P q s c

theorem someMet_congr (same : ∀ q t c, met q t c ↔ met' q t c) :
    SomeMet met P ↔ SomeMet met' P := by
  simp only [SomeMet, same]

/-- Something among two walks is met in one of them. -/
theorem someMet_or : SomeMet (fun q t c => met q t c ∨ met' q t c) P
    ↔ SomeMet met P ∨ SomeMet met' P := by
  simp only [SomeMet, or_and_right, exists_or]

theorem someMet_and {holds : Prop} :
    SomeMet (fun q t c => holds ∧ met q t c) P ↔ holds ∧ SomeMet met P := by
  simp only [SomeMet, and_assoc, exists_and_left]

theorem someMet_one {p : Place} {t : Selection} {own : Inclusion} :
    SomeMet (fun q s c => q = p ∧ s = t ∧ c = own) P ↔ P p t own := by
  constructor
  · rintro ⟨_, _, _, ⟨rfl, rfl, rfl⟩, held⟩
    exact held
  · exact fun held => ⟨p, t, own, ⟨rfl, rfl, rfl⟩, held⟩

theorem not_someMet (none : ∀ q t c, ¬ met q t c) : ¬ SomeMet met P := by
  simp [SomeMet, none]

theorem occurs_congr (same : ∀ q t c, met q t c ↔ met' q t c) :
    Occurs met σ path scope slot ↔ Occurs met' σ path scope slot :=
  someMet_congr same

/-- What occurs among two walks occurs in one of them. -/
theorem occurs_or : Occurs (fun q t c => met q t c ∨ met' q t c) σ path scope slot
    ↔ Occurs met σ path scope slot ∨ Occurs met' σ path scope slot :=
  someMet_or

end Occurs

namespace Meets

variable {p q : Place} {ss ts : List Selection} {s t : Selection} {c : Inclusion}

theorem mono (sub : ∀ t ∈ ss, t ∈ ts) (h : Meets view document p ss q s c) :
    Meets view document p ts q s c := by
  cases h with
  | here mem slot included => exact here (sub _ mem) slot included
  | field mem included isComposite inner => exact field (sub _ mem) included isComposite inner
  | inline mem read scope inner => exact inline (sub _ mem) read scope inner
  | spread mem included defined inner => exact spread (sub _ mem) included defined inner

end Meets

variable {p q : Place} {ss : List Selection} {s t : Selection} {c : Inclusion}

theorem not_meets_nil : ¬ Meets view document p [] q s c := by
  intro h
  cases h <;> simp_all

/-- What is met is met in one of the selections. -/
theorem meets_cons (t : Selection) (ss : List Selection) :
    Meets view document p (t :: ss) q s c
      ↔ Meets view document p [t] q s c ∨ Meets view document p ss q s c := by
  constructor
  · intro h
    cases h with
    | here mem slot included =>
        rcases List.mem_cons.mp mem with rfl | later
        · exact Or.inl (.here (List.mem_singleton_self _) slot included)
        · exact Or.inr (.here later slot included)
    | field mem included isComposite inner =>
        rcases List.mem_cons.mp mem with rfl | later
        · exact Or.inl (.field (List.mem_singleton_self _) included isComposite inner)
        · exact Or.inr (.field later included isComposite inner)
    | inline mem read scope inner =>
        rcases List.mem_cons.mp mem with rfl | later
        · exact Or.inl (.inline (List.mem_singleton_self _) read scope inner)
        · exact Or.inr (.inline later read scope inner)
    | spread mem included defined inner =>
        rcases List.mem_cons.mp mem with rfl | later
        · exact Or.inl (.spread (List.mem_singleton_self _) included defined inner)
        · exact Or.inr (.spread later included defined inner)
  · rintro (h | h)
    · exact h.mono (by simp)
    · exact h.mono fun _ => List.mem_cons_of_mem _

/-! ## One selection -/

/-- A field is met itself, and what is met below it. -/
theorem meets_field {f : FieldSelection} {own : Inclusion}
    (included : Inclusion.ofDirectives f.directives = .ok (some own)) :
    Meets view document p [.field f] q s c
      ↔ (q = p ∧ s = .field f ∧ c = own)
        ∨ view.isComposite f.type.innerName = .ok true
          ∧ Meets view document (p.below f) f.selections q s c := by
  constructor
  · intro h
    cases h with
    | here mem slot read =>
        obtain rfl := List.mem_singleton.mp mem
        have same : Except.ok (some own) = Except.ok (some c) := included.symm.trans read
        cases same
        exact Or.inl ⟨rfl, rfl, rfl⟩
    | field mem read isComposite inner =>
        cases List.mem_singleton.mp mem
        exact Or.inr ⟨isComposite, inner⟩
    | inline mem => simp at mem
    | spread mem => simp at mem
  · rintro (⟨rfl, rfl, rfl⟩ | ⟨isComposite, inner⟩)
    · exact .here (List.mem_singleton_self _) rfl included
    · exact .field (List.mem_singleton_self _) included isComposite inner

/-- An inline fragment is entered. -/
theorem meets_inline {condition : Option Name} {directives : List Directive}
    {inner : List Selection} {verdict : Verdict} {conditions : Option Conjunction}
    (read : Verdict.ofDirectives directives = .ok verdict)
    (scope : verdict.scope? = some conditions) :
    Meets view document p [.inlineFragment condition directives inner] q s c
      ↔ Meets view document (p.enter condition conditions (.said directives)) inner q s c := by
  constructor
  · intro h
    cases h with
    | here mem slot =>
        obtain rfl := List.mem_singleton.mp mem
        simp [Selection.slot?] at slot
    | field mem => simp at mem
    | inline mem read' scope' below =>
        cases List.mem_singleton.mp mem
        cases read.symm.trans read'
        cases scope.symm.trans scope'
        exact below
    | spread mem => simp at mem
  · exact .inline (List.mem_singleton_self _) read scope

/-- A spread is met itself, and what is met in its fragment. -/
theorem meets_spread {name : Name} {directives : List Directive} {guard : Inclusion}
    {f : Sourced FragmentDefinition}
    (included : Inclusion.ofDirectives directives = .ok (some guard))
    (defined : document.fragment? name = some f) :
    Meets view document p [.fragmentSpread name directives] q s c
      ↔ (q = p ∧ s = .fragmentSpread name directives ∧ c = guard)
        ∨ Meets view document (p.follow f.definition.typeCondition guard) f.definition.selections
          q s c := by
  constructor
  · intro h
    cases h with
    | here mem slot read =>
        obtain rfl := List.mem_singleton.mp mem
        have same : Except.ok (some guard) = Except.ok (some c) := included.symm.trans read
        cases same
        exact Or.inl ⟨rfl, rfl, rfl⟩
    | field mem => simp at mem
    | inline mem => simp at mem
    | spread mem read defined' inner =>
        cases List.mem_singleton.mp mem
        cases included.symm.trans read
        cases defined.symm.trans defined'
        exact Or.inr inner
  · rintro (⟨rfl, rfl, rfl⟩ | inner)
    · exact .here (List.mem_singleton_self _) rfl included
    · exact .spread (List.mem_singleton_self _) included defined inner

/-- A selection that is never included is passed over. -/
theorem not_meets_skipped (skips : Inclusion.ofDirectives t.directives = .ok none) :
    ¬ Meets view document p [t] q s c := by
  intro h
  cases h with
  | here mem slot included =>
      cases List.mem_singleton.mp mem
      cases skips.symm.trans included
  | field mem included =>
      cases List.mem_singleton.mp mem
      cases skips.symm.trans included
  | inline mem read scope =>
      cases List.mem_singleton.mp mem
      have included := Inclusion.ofDirectives_of_verdict read
      rw [scope] at included
      cases skips.symm.trans included
  | spread mem included =>
      cases List.mem_singleton.mp mem
      cases skips.symm.trans included

/-! ## Walking below a spread -/

theorem Meets.lift (h : Meets view document p ss q s c) (site : Place) :
    Meets view document (site.lift p) ss (site.lift q) s c := by
  induction h with
  | here mem slot included => exact here mem slot included
  | field mem included isComposite _ ih =>
      rw [Place.lift_below] at ih
      exact field mem included isComposite ih
  | inline mem read scope _ ih =>
      rw [Place.lift_enter] at ih
      exact inline mem read scope ih
  | spread mem included defined _ ih =>
      rw [Place.lift_follow] at ih
      exact spread mem included defined ih

/-- Walking from a place that was moved is walking from it and moving what is met. -/
theorem meets_lift {site : Place} :
    Meets view document (site.lift p) ss q s c
      ↔ ∃ q', Meets view document p ss q' s c ∧ q = site.lift q' := by
  constructor
  · -- Every step of the walk is taken from a place that is moved, and leads to such a place.
    intro h
    generalize moved : site.lift p = p' at h
    induction h generalizing p with
    | here mem slot included => exact ⟨p, .here mem slot included, moved.symm⟩
    | field mem included isComposite _ ih =>
        subst moved
        obtain ⟨q', inner, rfl⟩ := ih (Place.lift_below _ _ _)
        exact ⟨q', .field mem included isComposite inner, rfl⟩
    | inline mem read scope _ ih =>
        subst moved
        obtain ⟨q', inner, rfl⟩ := ih (Place.lift_enter _ _ _ _ _)
        exact ⟨q', .inline mem read scope inner, rfl⟩
    | spread mem included defined _ ih =>
        subst moved
        obtain ⟨q', inner, rfl⟩ := ih (Place.lift_follow _ _ _ _)
        exact ⟨q', .spread mem included defined inner, rfl⟩
  · rintro ⟨q', inner, rfl⟩
    exact inner.lift site

end SelectionGraph
