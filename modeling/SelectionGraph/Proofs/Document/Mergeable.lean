import SelectionGraph.Schema.View

/-!
# Mergeable — fields that can share a response key

The fields of a selection set are those selected in it, in its inline fragments and in the fragments
that it spreads.  Where two of them have one response key, their values have to have one shape in the
response; and unless they are selected on two different object types, so that no object has both,
they have to be one field.

* `SchemaView.SameShape` — values of two types look alike in a response;
* `InSet`                — a field of a selection set, with the type that it is selected on;
* `ShapeConflict`        — two fields differ in shape, or what is below them does;
* `SchemaView.Exclusive` — two different object types;
* `Conflict`             — two fields cannot share their response key;
* `Mergeable`            — no two fields of a set conflict.

Arguments are left out: fields that differ in them alone do not conflict here.
-/

namespace SelectionGraph

/-- Values of two types look alike in a response: lists and non-null marks stand in the same places,
and the types named are the same or both composite. -/
def SchemaView.SameShape (view : SchemaView) : TypeRef → TypeRef → Prop
  | .named a, .named b | .nonNullNamed a, .nonNullNamed b =>
      a = b ∨ view.isComposite a = .ok true ∧ view.isComposite b = .ok true
  | .list a, .list b | .nonNullList a, .nonNullList b => view.SameShape a b
  | _, _ => False

/-- No object is of both types. -/
def SchemaView.Exclusive (view : SchemaView) (t u : Name) : Prop :=
  t ≠ u ∧ view.schema.kind? t = some .object ∧ view.schema.kind? u = some .object

/-- A field is selected on `u` in selections on `t`, its fragments written out. -/
inductive InSet (document : Document) : Name → List Selection → Name → FieldSelection → Prop
  | here {t : Name} {ss : List Selection} {f : FieldSelection} (mem : .field f ∈ ss) :
      InSet document t ss t f
  | inline {t u : Name} {ss selections : List Selection} {condition : Option Name}
      {directives : List Directive} {f : FieldSelection}
      (mem : .inlineFragment condition directives selections ∈ ss)
      (inner : InSet document (condition.getD t) selections u f) : InSet document t ss u f
  | spread {t u : Name} {ss : List Selection} {name : Name} {directives : List Directive}
      {g : Sourced FragmentDefinition} {f : FieldSelection}
      (mem : .fragmentSpread name directives ∈ ss) (defined : document.fragment? name = some g)
      (inner : InSet document g.definition.typeCondition g.definition.selections u f) :
      InSet document t ss u f

/-- Where only one field is selected, it alone is in the set. -/
theorem InSet.eq_of_only {document : Document} {t u : Name} {ss : List Selection}
    {f g : FieldSelection} (only : ∀ s ∈ ss, s = .field f) (h : InSet document t ss u g) :
    u = t ∧ g = f := by
  cases h with
  | here mem =>
      cases only _ mem
      exact ⟨rfl, rfl⟩
  | inline mem => cases only _ mem
  | spread mem => cases only _ mem

/-- Two fields of one response key differ in the shape of their values, or two fields below them do
that share a response key in turn. -/
inductive ShapeConflict (view : SchemaView) (document : Document) :
    FieldSelection → FieldSelection → Prop
  | type {f g : FieldSelection} (differ : ¬ view.SameShape f.type g.type) :
      ShapeConflict view document f g
  | deeper {f g f' g' : FieldSelection} {t u : Name}
      (left : InSet document f.type.innerName f.selections t f')
      (right : InSet document g.type.innerName g.selections u g')
      (key : f'.responseKey = g'.responseKey) (conflict : ShapeConflict view document f' g') :
      ShapeConflict view document f g

/-- Two fields of one response key, selected on `t` and on `u`, cannot share it. -/
inductive Conflict (view : SchemaView) (document : Document) :
    Name → FieldSelection → Name → FieldSelection → Prop
  | shape {t u : Name} {f g : FieldSelection} (conflict : ShapeConflict view document f g) :
      Conflict view document t f u g
  | name {t u : Name} {f g : FieldSelection} (overlap : ¬ view.Exclusive t u)
      (differ : f.name ≠ g.name) : Conflict view document t f u g
  | deeper {t u t' u' : Name} {f g f' g' : FieldSelection} (overlap : ¬ view.Exclusive t u)
      (left : InSet document f.type.innerName f.selections t' f')
      (right : InSet document g.type.innerName g.selections u' g')
      (key : f'.responseKey = g'.responseKey) (conflict : Conflict view document t' f' u' g') :
      Conflict view document t f u g

/-- Any two fields of one response key in selections on a type can share it. -/
def Mergeable (view : SchemaView) (document : Document) (type : Name) (ss : List Selection) : Prop :=
  ∀ t f u g, InSet document type ss t f → InSet document type ss u g →
    f.responseKey = g.responseKey → ¬ Conflict view document t f u g

theorem SchemaView.not_exclusive_self (view : SchemaView) (t : Name) : ¬ view.Exclusive t t :=
  fun h => h.1 rfl

/-- Fields that conflict below do so themselves, unless they are selected on exclusive types. -/
theorem Conflict.not_below {view : SchemaView} {document : Document} {t u : Name}
    {f g : FieldSelection} (h : ¬ Conflict view document t f u g) (overlap : ¬ view.Exclusive t u)
    {t' u' : Name} {f' g' : FieldSelection}
    (left : InSet document f.type.innerName f.selections t' f')
    (right : InSet document g.type.innerName g.selections u' g')
    (key : f'.responseKey = g'.responseKey) : ¬ Conflict view document t' f' u' g' :=
  fun conflict => h (.deeper overlap left right key conflict)

end SelectionGraph
