import SelectionGraph.Text.Hex

/-!
# StringValue — reading quoted strings and block strings

The two spellings of a string:

- `quoted?` reads a string after its opening quote, with its escapes;
- `block?` reads a block string after its three opening quotes;
- `blockValue` is what the lines of a block string stand for: common indentation and the blank
  lines at both ends are not part of it.

Both readers return what follows the closing quotes.  `none` says that the text ends, or breaks the
line, before the string is closed, or that an escape is unknown.
-/

namespace SelectionGraph
namespace StringValue

/-- Line feeds and carriage returns end a line. -/
def isLineTerminator (c : Char) : Bool :=
  c = '\n' || c = '\r'

/-! ## Quoted strings -/

def letterEscape? (c : Char) : Option Char :=
  match c with
  | '"' => some '"'
  | '\\' => some '\\'
  | '/' => some '/'
  | 'b' => some (Char.ofNat 8)
  | 'f' => some (Char.ofNat 12)
  | 'n' => some '\n'
  | 'r' => some '\r'
  | 't' => some '\t'
  | _ => none

/-- The number that four hexadecimal digits stand for. -/
def fourDigits? (p q r s : Char) : Option Nat := do
  return (((← Hex.value? p) * 16 + (← Hex.value? q)) * 16 + (← Hex.value? r)) * 16 + (← Hex.value? s)

/-- The code units of a quoted string after its opening quote, and what follows the closing one.
Characters that are not escaped are one unit each. -/
def quotedUnits? : List Char → Option (List Nat × List Char)
  | [] => none
  | '"' :: rest => some ([], rest)
  | '\\' :: 'u' :: p :: q :: r :: s :: rest => do
      let unit ← fourDigits? p q r s
      let (units, after) ← quotedUnits? rest
      return (unit :: units, after)
  | '\\' :: c :: rest => do
      let escaped ← letterEscape? c
      let (units, after) ← quotedUnits? rest
      return (escaped.toNat :: units, after)
  | c :: rest => do
      if isLineTerminator c || c = '\\' then none
      let (units, after) ← quotedUnits? rest
      return (c.toNat :: units, after)

/-- The characters of code units: a high and a low surrogate in a row are one character, and a
surrogate that stands alone is a replacement character. -/
def characters : List Nat → List Char
  | high :: low :: rest =>
      if 0xD800 ≤ high ∧ high < 0xDC00 ∧ 0xDC00 ≤ low ∧ low < 0xE000 then
        Char.ofNat (0x10000 + (high - 0xD800) * 1024 + (low - 0xDC00)) :: characters rest
      else if 0xD800 ≤ high ∧ high < 0xE000 then Char.ofNat 0xFFFD :: characters (low :: rest)
      else Char.ofNat high :: characters (low :: rest)
  | [unit] => [Char.ofNat (if 0xD800 ≤ unit ∧ unit < 0xE000 then 0xFFFD else unit)]
  | [] => []

/-- Reads a quoted string after its opening quote. -/
def quoted? (text : List Char) : Option (String × List Char) :=
  (quotedUnits? text).map fun (units, after) => (String.ofList (characters units), after)

/-! ## Block strings -/

/-- The characters of a block string up to its closing quotes, and what follows them.  A backslash
before three quotes stands for the three quotes. -/
def blockText? : List Char → Option (List Char × List Char)
  | [] => none
  | '"' :: '"' :: '"' :: rest => some ([], rest)
  | '\\' :: '"' :: '"' :: '"' :: rest =>
      (blockText? rest).map fun (text, after) => ('"' :: '"' :: '"' :: text, after)
  | c :: rest => (blockText? rest).map fun (text, after) => (c :: text, after)

/-- The lines of a block string: a line feed, a carriage return, or both together end a line. -/
def blockLines : List Char → List (List Char)
  | [] => [[]]
  | '\r' :: '\n' :: rest => [] :: blockLines rest
  | c :: rest =>
      if isLineTerminator c then [] :: blockLines rest
      else
        match blockLines rest with
        | [] => [[c]]
        | line :: more => (c :: line) :: more

/-- Spaces and tabs: what indents a line. -/
def isIndent (c : Char) : Bool :=
  c = ' ' || c = '\t'

/-- How far a line is indented; `none` for a line of spaces and tabs only. -/
def indentation? (line : List Char) : Option Nat :=
  if line.all isIndent then none else some (line.takeWhile isIndent).length

/-- The least indentation of the lines that have one, and zero when there are none. -/
def commonIndentation (lines : List (List Char)) : Nat :=
  ((lines.filterMap indentation?).min?).getD 0

/-- The value of a block string's characters: the indentation common to all lines but the first is
removed from these, blank lines at both ends are dropped, and line feeds join the rest. -/
def blockValue (text : List Char) : List Char :=
  match blockLines text with
  | [] => []
  | first :: others =>
      -- The first line starts behind the quotes and has no indentation to lose.
      let dedented := first :: others.map (List.drop (commonIndentation others))
      let isBlank := fun (line : List Char) => line.all isIndent
      let kept := ((dedented.dropWhile isBlank).reverse.dropWhile isBlank).reverse
      ['\n'].intercalate kept

/-- Reads a block string after its three opening quotes. -/
def block? (text : List Char) : Option (String × List Char) :=
  (blockText? text).map fun (content, after) => (String.ofList (blockValue content), after)

end StringValue
end SelectionGraph
