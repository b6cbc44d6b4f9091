/-!
# Lines — one-line form of a text

The source text of a definition is compared by what it says and not by how it is laid out on
lines.  This module gives the one-line form used for that:

- `isWhiteSpace` : the characters with the Unicode property `White_Space`;
- `lines`        : the lines of a text, without their ends;
- `trim`         : a line without the white space around it;
- `singleLine`   : the trimmed, non-blank lines joined by one space each.

Everything works on lists of characters, so that the rules can be reasoned about by induction on
the text; `String.singleLine` is the same rule on strings.
-/

namespace SelectionGraph
namespace Text

/-! ## White space -/

/-- The code points with the property `White_Space`, as inclusive ranges. -/
def whiteSpaceRanges : List (Nat × Nat) :=
  [(0x0009, 0x000D), (0x0020, 0x0020), (0x0085, 0x0085), (0x00A0, 0x00A0), (0x1680, 0x1680),
   (0x2000, 0x200A), (0x2028, 0x2029), (0x202F, 0x202F), (0x205F, 0x205F), (0x3000, 0x3000)]

/-- Whether a character has the property `White_Space`. -/
def isWhiteSpace (c : Char) : Bool :=
  whiteSpaceRanges.any fun (low, high) => decide (low ≤ c.toNat) && decide (c.toNat ≤ high)

/-! ## Lines -/

/-- The lines of a text.  A line ends at a line feed, together with one carriage return directly
before it; a carriage return elsewhere belongs to its line.  A line feed at the very end of the
text opens no further line. -/
def lines : List Char → List (List Char)
  | [] => []
  | '\n' :: rest => [] :: lines rest
  | '\r' :: '\n' :: rest => [] :: lines rest
  | c :: rest =>
      match lines rest with
      | [] => [[c]]
      | line :: more => (c :: line) :: more

def trimStart (line : List Char) : List Char :=
  line.dropWhile isWhiteSpace

def trimEnd (line : List Char) : List Char :=
  (line.reverse.dropWhile isWhiteSpace).reverse

def trim (line : List Char) : List Char :=
  trimEnd (trimStart line)

/-! ## The one-line form -/

/-- The lines of a text that say something, trimmed. -/
def trimmedLines (text : List Char) : List (List Char) :=
  ((lines text).map trim).filter fun line => !line.isEmpty

/-- The one-line form: every line is trimmed, blank lines are dropped, and the rest are joined by
a single space. -/
def singleLine (text : List Char) : List Char :=
  [' '].intercalate (trimmedLines text)

end Text

def singleLine (text : String) : String :=
  String.ofList (Text.singleLine text.toList)

end SelectionGraph
