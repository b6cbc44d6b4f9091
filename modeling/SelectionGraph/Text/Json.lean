import SelectionGraph.Text.Hex

/-!
# Json — compact JSON texts

JSON values whose object keys keep the order they are given in, and their compact text:

- `Json`        : the values this library writes (numbers are not among them);
- `Json.escape` : a string in quotes;
- `Json.render` : the text, without any blank between its parts.
-/

namespace SelectionGraph

/-- A JSON value without numbers.  Members of an object are kept in order. -/
inductive Json
  | null
  | bool (value : Bool)
  | string (value : String)
  | array (items : List Json)
  | object (members : List (String × Json))

namespace Json

/-! ## Strings -/

/-- How a character is written inside quotes: quotes, backslashes and control characters are
escaped, the common ones by a letter and the others by four digits. -/
def escapeChar (c : Char) : List Char :=
  if c = '"' then ['\\', '"']
  else if c = '\\' then ['\\', '\\']
  else if c = '\n' then ['\\', 'n']
  else if c = '\r' then ['\\', 'r']
  else if c = '\t' then ['\\', 't']
  else if c.toNat = 8 then ['\\', 'b']
  else if c.toNat = 12 then ['\\', 'f']
  else if c.toNat < 32 then ['\\', 'u', '0', '0', Hex.lower (c.toNat / 16), Hex.lower (c.toNat % 16)]
  else [c]

def escape (value : String) : String :=
  "\"" ++ String.ofList (value.toList.flatMap escapeChar) ++ "\""

/-! ## Values -/

mutual

def render : Json → String
  | null => "null"
  | bool true => "true"
  | bool false => "false"
  | string value => escape value
  | array items => "[" ++ ",".intercalate (renderItems items) ++ "]"
  | object members => "\x7b" ++ ",".intercalate (renderMembers members) ++ "\x7d"

def renderItems : List Json → List String
  | [] => []
  | item :: rest => item.render :: renderItems rest

def renderMembers : List (String × Json) → List String
  | [] => []
  | (key, value) :: rest => (escape key ++ ":" ++ value.render) :: renderMembers rest

end

end Json
end SelectionGraph
