import SelectionGraph.Text.Hex
import SelectionGraph.Language.Directive

/-!
# LiteralText — the texts of values

Two texts of a value:

- `Literal.oneLine`  : on one line, items separated by a comma and a space;
- `Literal.indented` : lists and objects over several lines, one item a line, two spaces deeper
  than their brackets; a string of several lines as a block string where that reads back.

Numbers and names are written as they were written; both texts share `Literal.quoted` for strings
on one line.
-/

namespace SelectionGraph
namespace Literal

/-! ## Strings -/

/-- How a character is written inside quotes.  Quotes, backslashes and control characters are
escaped, but a tab stands for itself. -/
def escapeChar (c : Char) : List Char :=
  if c = '"' then ['\\', '"']
  else if c = '\\' then ['\\', '\\']
  else if c = '\n' then ['\\', 'n']
  else if c = '\r' then ['\\', 'r']
  else if c = '\t' then [c]
  else if c.toNat = 8 then ['\\', 'b']
  else if c.toNat = 12 then ['\\', 'f']
  else if c.toNat < 32 then ['\\', 'u', '0', '0', Hex.upper (c.toNat / 16), Hex.upper (c.toNat % 16)]
  else [c]

/-- A string in quotes, on one line. -/
def quoted (value : String) : String :=
  "\"" ++ String.ofList (value.toList.flatMap escapeChar) ++ "\""

def splitLineFeeds : List Char → List (List Char)
  | [] => [[]]
  | '\n' :: rest => [] :: splitLineFeeds rest
  | c :: rest =>
      match splitLineFeeds rest with
      | [] => [[c]]
      | line :: more => (c :: line) :: more

/-- Spaces and tabs: what indents a line of a block string. -/
def isIndent (c : Char) : Bool :=
  c = ' ' || c = '\t'

/-- Whether a line holds spaces and tabs only. -/
def isBlank (line : List Char) : Bool :=
  line.all isIndent

/-- Whether a block string can stand for this text.  Reading a block string normalizes line ends,
drops blank lines at both ends and removes common indentation, so the text must offer none of
these. -/
def fitsBlock (text : List Char) : Bool :=
  let parts := splitLineFeeds text
  !text.contains '\r'
    && !(parts.head?.all isBlank)
    && !(parts.getLast?.all isBlank)
    && parts.any fun line => !isBlank line && !(line.head?.any isIndent)

/-- A line of a block string: three quotes in a row are escaped. -/
def escapeBlockLine : List Char → List Char
  | '"' :: '"' :: '"' :: rest => '\\' :: '"' :: '"' :: '"' :: escapeBlockLine rest
  | c :: rest => c :: escapeBlockLine rest
  | [] => []

def lineBreak (depth : Nat) : String :=
  String.ofList ('\n' :: List.replicate (2 * depth) ' ')

/-- A string as a block string whose lines stand at the given depth; empty lines stay empty. -/
def block (depth : Nat) (text : List Char) : String :=
  let body := (splitLineFeeds text).map fun line =>
    if line.isEmpty then "\n" else lineBreak depth ++ String.ofList (escapeBlockLine line)
  "\"\"\"" ++ String.join body ++ lineBreak depth ++ "\"\"\""

/-- A string where several lines are allowed. -/
def quotedOrBlock (depth : Nat) (value : String) : String :=
  if value.toList.contains '\n' && fitsBlock value.toList then block depth value.toList
  else quoted value

/-! ## On one line -/

mutual

/-- The text of a value on one line. -/
def oneLine : Literal → String
  | null => "null"
  | boolean value => if value then "true" else "false"
  | enum name => name
  | var name => "$" ++ name
  | int text => text
  | float text => text
  | string value => quoted value
  | list items => "[" ++ ", ".intercalate (oneLineItems items) ++ "]"
  | object members => "\x7b" ++ ", ".intercalate (oneLineMembers members) ++ "\x7d"

def oneLineItems : List Literal → List String
  | [] => []
  | item :: rest => item.oneLine :: oneLineItems rest

def oneLineMembers : List (Name × Literal) → List String
  | [] => []
  | (name, value) :: rest => (name ++ ": " ++ value.oneLine) :: oneLineMembers rest

end

/-! ## Over several lines -/

mutual

/-- The text of a value over several lines, its brackets standing at the given depth. -/
def indented (depth : Nat) : Literal → String
  | null => "null"
  | boolean value => if value then "true" else "false"
  | enum name => name
  | var name => "$" ++ name
  | int text => text
  | float text => text
  | string value => quotedOrBlock depth value
  | list [] => "[]"
  | list (item :: rest) => "[" ++ indentedItems (depth + 1) (item :: rest) ++ lineBreak depth ++ "]"
  | object [] => "\x7b\x7d"
  | object (member :: rest) =>
      "\x7b" ++ indentedMembers (depth + 1) (member :: rest) ++ lineBreak depth ++ "\x7d"

/-- The items of a list, each on its own line and followed by a comma. -/
def indentedItems (depth : Nat) : List Literal → String
  | [] => ""
  | item :: rest => lineBreak depth ++ item.indented depth ++ "," ++ indentedItems depth rest

/-- The members of an object, each on its own line and followed by a comma. -/
def indentedMembers (depth : Nat) : List (Name × Literal) → String
  | [] => ""
  | (name, value) :: rest =>
      lineBreak depth ++ name ++ ": " ++ value.indented depth ++ "," ++ indentedMembers depth rest

end

end Literal

/-! ## Arguments and directives -/

def Argument.render (a : Argument) : String :=
  a.name ++ ": " ++ a.value.oneLine

/-- The text of an argument list: nothing when it is empty. -/
def Argument.renderAll (arguments : List Argument) : String :=
  if arguments.isEmpty then "" else "(" ++ ", ".intercalate (arguments.map Argument.render) ++ ")"

def Directive.render (d : Directive) : String :=
  "@" ++ d.name ++ Argument.renderAll d.arguments

/-- The text of a directive list, each directive preceded by a space. -/
def Directive.renderAll (directives : List Directive) : String :=
  String.join (directives.map fun d => " " ++ d.render)

end SelectionGraph
