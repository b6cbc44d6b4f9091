import SelectionGraph.Language.StringValue
import SelectionGraph.Language.TypeRef

/-!
# Token — the lexical tokens of a document

A document is cut into tokens; between them stand characters that mean nothing: white space, line
ends, commas, byte order marks and comments.

- `Token`        : the tokens, strings by their value and numbers by their text;
- `skipIgnored`  : the text after the characters that mean nothing;
- `nextToken?`   : the token that a text starts with;
- `Lexeme`       : a token with the characters it was read from and those skipped before it;
- `Lexeme.scan?` : all lexemes of a text, or `none` when some place starts no token.
-/

namespace SelectionGraph

/-- A lexical token. -/
inductive Token
  | punctuator (mark : Char)
  | ellipsis
  | name (text : Name)
  | int (text : String)
  | float (text : String)
  | string (value : String)
  deriving DecidableEq, Repr

namespace Token

/-! ## Character classes -/

/-- Letters of ASCII and the underscore start a name. -/
def isNameStart (c : Char) : Bool :=
  c.isAlpha || c = '_'

/-- What a name goes on with. -/
def isNamePart (c : Char) : Bool :=
  isNameStart c || c.isDigit

/-- The marks that are tokens by themselves. -/
def isPunctuator (c : Char) : Bool :=
  ['!', '$', '&', '(', ')', ':', '=', '@', '[', ']', '\x7b', '|', '\x7d'].contains c

/-- The characters that mean nothing outside comments and strings. -/
def isIgnored (c : Char) : Bool :=
  c = ' ' || c = '\t' || c = '\n' || c = '\r' || c = ',' || c.toNat = 0xFEFF

/-- The text after its leading characters that mean nothing.  A comment runs from its mark to the
end of the line; `inComment` says that the text starts inside one. -/
def skipIgnored (inComment : Bool) : List Char → List Char
  | [] => []
  | c :: rest =>
      if inComment then skipIgnored (!StringValue.isLineTerminator c) rest
      else if c = '#' then skipIgnored true rest
      else if isIgnored c then skipIgnored false rest
      else c :: rest

/-! ## Numbers -/

/-- The digits that a text starts with, and the rest; `none` when it starts with none. -/
def digits? (text : List Char) : Option (List Char × List Char) :=
  if text.head?.any Char.isDigit then some (text.takeWhile Char.isDigit, text.dropWhile Char.isDigit)
  else none

/-- A sign out of `signs`, if the text starts with one. -/
def sign (signs : List Char) : List Char → List Char × List Char
  | c :: rest => if signs.contains c then ([c], rest) else ([], c :: rest)
  | [] => ([], [])

/-- The fraction of a number: empty, or a point and digits. -/
def fraction? : List Char → Option (List Char × List Char)
  | '.' :: rest => (digits? rest).map fun (ds, after) => ('.' :: ds, after)
  | text => some ([], text)

/-- The exponent of a number: empty, or its mark, a sign and digits. -/
def exponent? : List Char → Option (List Char × List Char)
  | c :: rest =>
      if c = 'e' || c = 'E' then
        let (s, unsigned) := sign ['+', '-'] rest
        (digits? unsigned).map fun (ds, after) => (c :: s ++ ds, after)
      else some ([], c :: rest)
  | [] => some ([], [])

/-- Reads a number.  Its whole part has no leading zero, and no name or point may follow it
directly. -/
def number? (text : List Char) : Option (Token × List Char) := do
  let (s, unsigned) := sign ['-'] text
  let (whole, rest) ← digits? unsigned
  if whole.head? = some '0' && whole.length ≠ 1 then none
  let (part, rest) ← fraction? rest
  let (power, rest) ← exponent? rest
  if rest.head?.any fun c => isNameStart c || c = '.' then none
  let written := String.ofList (s ++ whole ++ part ++ power)
  return (if part.isEmpty && power.isEmpty then int written else float written, rest)

/-! ## Tokens -/

/-- The token that a text starts with, and the rest. -/
def nextToken? : List Char → Option (Token × List Char)
  | '.' :: '.' :: '.' :: rest => some (ellipsis, rest)
  | '"' :: '"' :: '"' :: rest =>
      (StringValue.block? rest).map fun (value, after) => (string value, after)
  | '"' :: rest => (StringValue.quoted? rest).map fun (value, after) => (string value, after)
  | c :: rest =>
      if isPunctuator c then some (punctuator c, rest)
      else if isNameStart c then
        some (name (String.ofList (c :: rest.takeWhile isNamePart)), rest.dropWhile isNamePart)
      else number? (c :: rest)
  | [] => none

end Token

/-! ## Lexemes -/

/-- A token in its place: the characters skipped before it and those it was read from. -/
structure Lexeme where
  skipped : List Char
  text : List Char
  token : Token
  deriving Repr

namespace Lexeme

/-- The first characters of `text` that are not part of its end `rest`. -/
def before (text rest : List Char) : List Char :=
  text.take (text.length - rest.length)

/-- All lexemes of a text, in order.  A token takes at least one character, so the text left over
gets shorter with each. -/
def scan? (text : List Char) : Option (List Lexeme) :=
  let start := Token.skipIgnored false text
  if start.isEmpty then some []
  else
    match Token.nextToken? start with
    | none => none
    | some (token, rest) =>
        if rest.length < text.length then
          (scan? rest).map (⟨before text start, before start rest, token⟩ :: ·)
        else none
termination_by text.length

/-- The source text of a run of lexemes, from the first token to the last. -/
def sourceText : List Lexeme → List Char
  | [] => []
  | first :: others => first.text ++ others.flatMap fun l => l.skipped ++ l.text

end Lexeme

def Token.scan? (text : List Char) : Option (List Token) :=
  (Lexeme.scan? text).map (List.map Lexeme.token)

end SelectionGraph
