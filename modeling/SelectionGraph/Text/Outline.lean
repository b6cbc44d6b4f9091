/-!
# Outline — texts made of nested blocks

- `Outline`        : a line, or a head with a block of further outlines in braces;
- `Outline.render` : its text, every item of a block on a line of its own, two spaces deeper than
  the block; a block without items is a pair of braces.
-/

namespace SelectionGraph

/-- A line, or a head followed by a block. -/
inductive Outline
  | line (text : String)
  | block (head : String) (items : List Outline)

namespace Outline

def lineBreak (depth : Nat) : String :=
  String.ofList ('\n' :: List.replicate (2 * depth) ' ')

mutual

def renderAt (depth : Nat) : Outline → String
  | line text => text
  | block head [] => head ++ "\x7b\x7d"
  | block head (item :: rest) =>
      head ++ "\x7b" ++ renderItems (depth + 1) (item :: rest) ++ lineBreak depth ++ "\x7d"

/-- The items of a block, each on its own line. -/
def renderItems (depth : Nat) : List Outline → String
  | [] => ""
  | item :: rest => lineBreak depth ++ item.renderAt depth ++ renderItems depth rest

end

def render (o : Outline) : String :=
  o.renderAt 0

end Outline
end SelectionGraph
