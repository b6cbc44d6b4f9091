import SelectionGraph.Direct.Basic
import SelectionGraph.Text.Outline

/-!
# Outline — the text of direct selections

`SelectionSet.outline` writes a selection set as a block with one selection a line: fields, inline
fragments, fragment spreads, each with the directives that its conditions come to.
-/

namespace SelectionGraph

/-- The field's response key, its name where that differs, and its conditions. -/
def Field.head (f : Field) : String :=
  (if f.responseKey == f.name then "" else f.responseKey ++ ": ") ++ f.name
    ++ f.inclusion.directiveText

/-- The type condition of an inline fragment, its conditions and its deferral. -/
def InlineSpread.head (s : InlineSpread) : String :=
  "... on " ++ s.typeInfo.parentType ++ s.typeInfo.conditions.elim "" Conjunction.directiveText
    ++ s.deferral.directiveText

/-- The fragment's name, the conditions of the spread and its deferral. -/
def NamedSpread.head (s : NamedSpread) : String :=
  "..." ++ s.fragment.name ++ s.inclusion.directiveText ++ s.deferral.directiveText

namespace DirectSelections

mutual

/-- The selections of a set, one outline each. -/
def outlines : DirectSelections → List Outline
  | ⟨fields, inlineFragments, namedFragments⟩ =>
      fieldOutlines fields ++ inlineOutlines inlineFragments
        ++ namedFragments.map fun s => .line s.head

def fieldOutlines : List Field → List Outline
  | [] => []
  | .scalar f :: rest => .line (Field.scalar f).head :: fieldOutlines rest
  | .entity ⟨id, responseKey, type, node, inclusion, ⟨typeInfo, direct⟩⟩ :: rest =>
      let f := Field.entity ⟨id, responseKey, type, node, inclusion, ⟨typeInfo, direct⟩⟩
      .block (f.head ++ " ") (outlines direct) :: fieldOutlines rest

def inlineOutlines : List InlineSpread → List Outline
  | [] => []
  | ⟨⟨typeInfo, direct⟩, deferral⟩ :: rest =>
      let s : InlineSpread := ⟨⟨typeInfo, direct⟩, deferral⟩
      .block (s.head ++ " ") (outlines direct) :: inlineOutlines rest

end

end DirectSelections

/-- A selection set as a block after a head. -/
def SelectionSet.outline (head : String) (s : SelectionSet) : Outline :=
  .block head s.direct.outlines

end SelectionGraph
