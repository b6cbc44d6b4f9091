import Mathlib.Logic.Relation
import SelectionGraph.Inclusion.OfDirectives
import SelectionGraph.Schema.View

/-!
# Visited — what the walk of a definition comes to

A walk passes over a selection that is never included, with everything below it.  What it comes to
otherwise, whether or not it can go on from there:

* `Selection.Skipped` — a selection is never included, whatever the values of variables;
* `Visited`           — the selections that the walk of some selections comes to;
* `Spreads`           — the fragments whose spreads it comes to;
* `Document.Spreads`  — a fragment of a document spreads another.
-/

namespace SelectionGraph

/-- A selection that is never included.  One whose directives cannot be read is not of this kind. -/
def Selection.Skipped (s : Selection) : Prop :=
  Inclusion.ofDirectives s.directives = .ok none

theorem Selection.not_skipped {s : Selection} {inclusion : Inclusion}
    (included : Inclusion.ofDirectives s.directives = .ok (some inclusion)) : ¬ s.Skipped := by
  intro skips
  cases included.symm.trans skips

/-- Whether a selection is an inline fragment or a spread. -/
def Selection.isFragment : Selection → Bool
  | .field _ => false
  | .inlineFragment _ _ _ => true
  | .fragmentSpread _ _ => true

/-- The walk of some selections comes to a selection.  Only fields of composite type have selections
below them. -/
inductive Visited (view : SchemaView) : List Selection → Selection → Prop
  | here {ss : List Selection} {s : Selection} (mem : s ∈ ss) (kept : ¬ s.Skipped) : Visited view ss s
  | field {ss : List Selection} {f : FieldSelection} {s : Selection} (mem : .field f ∈ ss)
      (kept : ¬ (Selection.field f).Skipped)
      (isComposite : view.isComposite f.type.innerName = .ok true)
      (inner : Visited view f.selections s) : Visited view ss s
  | inline {ss selections : List Selection} {condition : Option Name} {directives : List Directive}
      {s : Selection} (mem : .inlineFragment condition directives selections ∈ ss)
      (kept : ¬ (Selection.inlineFragment condition directives selections).Skipped)
      (inner : Visited view selections s) : Visited view ss s

/-- The walk of some selections comes to a spread of a fragment. -/
def Spreads (view : SchemaView) (ss : List Selection) (name : Name) : Prop :=
  ∃ directives, Visited view ss (.fragmentSpread name directives)

/-- One fragment of a document spreads another, which need not be defined. -/
def Document.Spreads (view : SchemaView) (document : Document) (name other : Name) : Prop :=
  ∃ f, document.fragment? name = some f ∧ SelectionGraph.Spreads view f.definition.selections other

variable {view : SchemaView} {ss ts : List Selection} {s t : Selection}

namespace Visited

theorem mono (sub : ∀ t ∈ ss, t ∈ ts) (h : Visited view ss s) : Visited view ts s := by
  cases h with
  | here mem kept => exact here (sub _ mem) kept
  | field mem kept isComposite inner => exact field (sub _ mem) kept isComposite inner
  | inline mem kept inner => exact inline (sub _ mem) kept inner

theorem not_nil : ¬ Visited view [] s := by
  intro h
  cases h <;> simp_all

/-- What is visited is visited in one of the selections. -/
theorem cons_iff : Visited view (t :: ss) s ↔ Visited view [t] s ∨ Visited view ss s := by
  constructor
  · intro h
    cases h with
    | here mem kept =>
        rcases List.mem_cons.mp mem with rfl | later
        · exact Or.inl (here (List.mem_singleton_self _) kept)
        · exact Or.inr (here later kept)
    | field mem kept isComposite inner =>
        rcases List.mem_cons.mp mem with rfl | later
        · exact Or.inl (field (List.mem_singleton_self _) kept isComposite inner)
        · exact Or.inr (field later kept isComposite inner)
    | inline mem kept inner =>
        rcases List.mem_cons.mp mem with rfl | later
        · exact Or.inl (inline (List.mem_singleton_self _) kept inner)
        · exact Or.inr (inline later kept inner)
  · rintro (h | h)
    · exact h.mono (by simp)
    · exact h.mono fun _ => List.mem_cons_of_mem _

/-- A selection that is skipped is passed over. -/
theorem not_skipped (skips : t.Skipped) : ¬ Visited view [t] s := by
  intro h
  cases h with
  | here mem kept => exact kept (List.mem_singleton.mp mem ▸ skips)
  | field mem kept => exact kept (List.mem_singleton.mp mem ▸ skips)
  | inline mem kept => exact kept (List.mem_singleton.mp mem ▸ skips)

theorem field_iff {f : FieldSelection} (kept : ¬ (Selection.field f).Skipped) :
    Visited view [.field f] s
      ↔ s = .field f ∨ view.isComposite f.type.innerName = .ok true ∧ Visited view f.selections s := by
  constructor
  · intro h
    cases h with
    | here mem _ => exact Or.inl (List.mem_singleton.mp mem)
    | field mem _ isComposite inner =>
        cases List.mem_singleton.mp mem
        exact Or.inr ⟨isComposite, inner⟩
    | inline mem => simp at mem
  · rintro (rfl | ⟨isComposite, inner⟩)
    · exact here (List.mem_singleton_self _) kept
    · exact field (List.mem_singleton_self _) kept isComposite inner

theorem inline_iff {condition : Option Name} {directives : List Directive}
    {selections : List Selection}
    (kept : ¬ (Selection.inlineFragment condition directives selections).Skipped) :
    Visited view [.inlineFragment condition directives selections] s
      ↔ s = .inlineFragment condition directives selections ∨ Visited view selections s := by
  constructor
  · intro h
    cases h with
    | here mem _ => exact Or.inl (List.mem_singleton.mp mem)
    | field mem => simp at mem
    | inline mem _ inner =>
        cases List.mem_singleton.mp mem
        exact Or.inr inner
  · rintro (rfl | inner)
    · exact here (List.mem_singleton_self _) kept
    · exact inline (List.mem_singleton_self _) kept inner

theorem spread_iff {name : Name} {directives : List Directive}
    (kept : ¬ (Selection.fragmentSpread name directives).Skipped) :
    Visited view [.fragmentSpread name directives] s ↔ s = .fragmentSpread name directives := by
  constructor
  · intro h
    cases h with
    | here mem _ => exact List.mem_singleton.mp mem
    | field mem => simp at mem
    | inline mem => simp at mem
  · rintro rfl
    exact here (List.mem_singleton_self _) kept

end Visited
end SelectionGraph
