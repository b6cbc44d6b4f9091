import SelectionGraph.Language.Definition

/-!
# Document — operations and fragments read against a schema

Selections whose fields are known to the schema, and the definitions that hold them.

- `FieldSelection`, `Selection` : selections, each field with its definition in the schema;
- `DecidableEq Selection`       : selections are equal when they are written alike and their fields
  are defined alike; where they stand in a text plays no part;
- `OperationDefinition`, `FragmentDefinition` : definitions;
- `Sourced`                     : a definition with its source text, where that is known;
- `Document`                    : the definitions of a document.
-/

namespace SelectionGraph

/-! ## Selections -/

mutual

/-- A selected field: its label, if it has one, its definition in the schema, and what it was
written with. -/
structure FieldSelection where
  label : Option Name
  definition : FieldDefinition
  arguments : List Argument
  directives : List Directive
  selections : List Selection

/-- A selection. -/
inductive Selection
  | field (field : FieldSelection)
  | inlineFragment (typeCondition : Option Name) (directives : List Directive)
      (selections : List Selection)
  | fragmentSpread (name : Name) (directives : List Directive)

end

namespace FieldSelection

def name (f : FieldSelection) : Name :=
  f.definition.name

def type (f : FieldSelection) : TypeRef :=
  f.definition.type

/-- The name under which a response holds the field. -/
def responseKey (f : FieldSelection) : Name :=
  f.label.getD f.definition.name

end FieldSelection

def Selection.directives : Selection → List Directive
  | .field f => f.directives
  | .inlineFragment _ directives _ => directives
  | .fragmentSpread _ directives => directives

/-! ## Equality of selections -/

namespace Selection

mutual

def sameField : FieldSelection → FieldSelection → Bool
  | ⟨label, definition, arguments, directives, selections⟩, g =>
      label == g.label && definition == g.definition && arguments == g.arguments
        && directives == g.directives && sameAll selections g.selections

def same : Selection → Selection → Bool
  | .field f, .field g => sameField f g
  | .inlineFragment t ds ss, .inlineFragment t' ds' ss' => t == t' && ds == ds' && sameAll ss ss'
  | .fragmentSpread n ds, .fragmentSpread n' ds' => n == n' && ds == ds'
  | _, _ => false

/-- Whether two lists hold selections that are alike, in the same order. -/
def sameAll : List Selection → List Selection → Bool
  | [], [] => true
  | s :: ss, t :: ts => same s t && sameAll ss ts
  | _, _ => false

end

mutual

theorem sameField_refl : ∀ f : FieldSelection, sameField f f = true
  | ⟨_, _, _, _, selections⟩ => by simp [sameField, sameAll_refl selections]

theorem same_refl : ∀ s : Selection, same s s = true
  | .field f => by simp [same, sameField_refl f]
  | .inlineFragment _ _ ss => by simp [same, sameAll_refl ss]
  | .fragmentSpread _ _ => by simp [same]

theorem sameAll_refl : ∀ ss : List Selection, sameAll ss ss = true
  | [] => by simp [sameAll]
  | s :: ss => by simp [sameAll, same_refl s, sameAll_refl ss]

end

mutual

theorem eq_of_sameField : ∀ f g : FieldSelection, sameField f g = true → f = g
  | ⟨label, definition, arguments, directives, selections⟩, g, h => by
      simp only [sameField, Bool.and_eq_true, beq_iff_eq] at h
      obtain ⟨⟨⟨⟨h₁, h₂⟩, h₃⟩, h₄⟩, h₅⟩ := h
      cases g
      simp_all [eq_of_sameAll selections _ h₅]

theorem eq_of_same : ∀ s t : Selection, same s t = true → s = t
  | .field f, t, h => by
      cases t with
      | field g => rw [eq_of_sameField f g (by simpa [same] using h)]
      | _ => simp [same] at h
  | .inlineFragment c ds ss, t, h => by
      cases t with
      | inlineFragment c' ds' ss' =>
          simp only [same, Bool.and_eq_true, beq_iff_eq] at h
          rw [h.1.1, h.1.2, eq_of_sameAll ss ss' h.2]
      | _ => simp [same] at h
  | .fragmentSpread n ds, t, h => by cases t <;> simp_all [same]

theorem eq_of_sameAll : ∀ ss ts : List Selection, sameAll ss ts = true → ss = ts
  | [], ts, h => by cases ts <;> simp_all [sameAll]
  | s :: ss, ts, h => by
      cases ts with
      | nil => simp [sameAll] at h
      | cons t ts =>
          rw [sameAll, Bool.and_eq_true] at h
          rw [eq_of_same s t h.1, eq_of_sameAll ss ts h.2]

end

instance : DecidableEq Selection := fun s t =>
  if h : same s t = true then isTrue (eq_of_same s t h)
  else isFalse fun e => h (e ▸ same_refl s)

instance : DecidableEq FieldSelection := fun f g =>
  if h : sameField f g = true then isTrue (eq_of_sameField f g h)
  else isFalse fun e => h (e ▸ sameField_refl f)

end Selection

/-! ## Definitions -/

/-- An operation: its selections are made on the root type of its kind. -/
structure OperationDefinition where
  kind : OperationKind
  name : Option Name
  variableDefinitions : List VariableDefinition
  directives : List Directive
  rootType : Name
  selections : List Selection
  deriving DecidableEq

/-- A named fragment: its selections are made on its type condition. -/
structure FragmentDefinition where
  name : Name
  typeCondition : Name
  directives : List Directive
  selections : List Selection
  deriving DecidableEq

/-- A definition together with its source text, where that is known. -/
structure Sourced (α : Type) where
  definition : α
  text : Option String

def Sourced.withoutText {α : Type} (s : Sourced α) : Sourced α :=
  { s with text := none }

/-! ## Documents -/

/-- The operations and fragments of a document.  Names of operations are not repeated, nor those of
fragments, and an operation without a name comes first. -/
structure Document where
  operations : List (Sourced OperationDefinition)
  fragments : List (Sourced FragmentDefinition)

namespace Document

/-- The operation of a name; without a name, the only operation of the document. -/
def operation? (document : Document) : Option Name → Option (Sourced OperationDefinition)
  | some name => document.operations.find? fun o => o.definition.name == some name
  | none =>
      match document.operations with
      | [only] => some only
      | _ => none

def fragment? (document : Document) (name : Name) : Option (Sourced FragmentDefinition) :=
  document.fragments.find? fun f => f.definition.name == name

def withoutTexts (document : Document) : Document :=
  ⟨document.operations.map Sourced.withoutText, document.fragments.map Sourced.withoutText⟩

end Document
end SelectionGraph
