import SelectionGraph.Language.Definition
import SelectionGraph.Language.Token

/-!
# Grammar — reading values, directives and selections from tokens

A reader takes tokens from the front of a list and returns what it read with the tokens left over,
or `none` when the tokens are not of its form.

- `Reader`                      : readers, with the basic ones and repetition;
- `Grammar.value`               : values; `Grammar.typeRef` : type references;
- `Grammar.directives`          : directive lists;
- `Grammar.selection`           : selections.

Values, type references and selections nest.  Their readers take a bound on the depth of nesting;
as every level takes a token of its own, the number of tokens is always enough.
-/

namespace SelectionGraph

/-- Reads from the front of a list of tokens. -/
abbrev Reader (α : Type) := StateT (List Token) Option α

namespace Reader

variable {α : Type}

/-! ## Basic readers -/

def next? (token : Token) : Reader Bool := fun tokens =>
  some (tokens.head? == some token, tokens)

/-- Takes this token if it is the next one, and says whether it was. -/
def accept (token : Token) : Reader Bool := fun tokens =>
  match tokens with
  | [] => some (false, [])
  | t :: rest => if t = token then some (true, rest) else some (false, t :: rest)

/-- Takes this token, which must be the next one. -/
def expect (token : Token) : Reader Unit := fun tokens =>
  match tokens with
  | [] => none
  | t :: rest => if t = token then some ((), rest) else none

def name : Reader Name := fun tokens =>
  match tokens with
  | .name n :: rest => some (n, rest)
  | _ => none

def string? : Reader (Option String) := fun tokens =>
  match tokens with
  | .string s :: rest => some (some s, rest)
  | _ => some (none, tokens)

/-! ## Repetition -/

/-- Items up to a closing token, which is taken.  Every item takes at least one token. -/
def upTo (close : Token) (item : Reader α) (tokens : List Token) : Option (List α × List Token) :=
  match tokens with
  | [] => none
  | t :: rest =>
      if t = close then some ([], rest)
      else
        match item (t :: rest) with
        | none => none
        | some (a, left) =>
            if left.length < (t :: rest).length then
              (upTo close item left).map fun (as, left) => (a :: as, left)
            else none
termination_by tokens.length
decreasing_by assumption

/-- At least one item between two tokens. -/
def between (opening close : Token) (item : Reader α) : Reader (List α) := do
  expect opening
  let items ← upTo close item
  if items.isEmpty then failure
  return items

/-- At least one item between two tokens, or nothing at all when the first is not there. -/
def betweenOrNone (opening close : Token) (item : Reader α) : Reader (List α) := do
  if ← next? opening then between opening close item else return []

/-- Items each led by a token, as long as that token is next. -/
def ledBy (lead : Token) (item : Reader α) (tokens : List Token) : Option (List α × List Token) :=
  match tokens with
  | [] => some ([], [])
  | t :: rest =>
      if t = lead then
        match item rest with
        | none => none
        | some (a, left) =>
            if left.length ≤ rest.length then
              (ledBy lead item left).map fun (as, left) => (a :: as, left)
            else none
      else some ([], t :: rest)
termination_by tokens.length
decreasing_by simp only [List.length_cons]; omega

end Reader

namespace Grammar

open Reader

/-- The token of a mark. -/
abbrev mark (c : Char) : Token := Token.punctuator c

/-! ## Values and types -/

/-- The value that a name stands for by itself. -/
def namedValue (n : Name) : Literal :=
  if n = "true" then .boolean true
  else if n = "false" then .boolean false
  else if n = "null" then .null
  else .enum n

/-- A value whose lists and objects nest less than `depth` deep. -/
def value (depth : Nat) : Reader Literal := fun tokens =>
  match depth, tokens with
  | _, .punctuator '$' :: .name n :: rest => some (.var n, rest)
  | _, .int text :: rest => some (.int text, rest)
  | _, .float text :: rest => some (.float text, rest)
  | _, .string text :: rest => some (.string text, rest)
  | _, .name n :: rest => some (namedValue n, rest)
  | depth + 1, .punctuator '[' :: rest =>
      (upTo (mark ']') (value depth) rest).map fun (items, left) => (.list items, left)
  | depth + 1, .punctuator '\x7b' :: rest =>
      let member : Reader (Name × Literal) := do
        let n ← name
        expect (mark ':')
        return (n, ← value depth)
      (upTo (mark '\x7d') member rest).map fun (members, left) => (.object members, left)
  | _, _ => none

/-- A type reference whose lists nest less than `depth` deep. -/
def typeRef : Nat → Reader TypeRef
  | 0 => failure
  | depth + 1 => do
      let plain ←
        if ← accept (mark '[') then do
          let item ← typeRef depth
          expect (mark ']')
          pure (TypeRef.list item)
        else TypeRef.named <$> name
      return if ← accept (mark '!') then plain.nonNull else plain

/-! ## Arguments and directives -/

def argument (depth : Nat) : Reader Argument := do
  let n ← name
  expect (mark ':')
  return ⟨n, ← value depth⟩

/-- Arguments in parentheses, or none. -/
def arguments (depth : Nat) : Reader (List Argument) :=
  betweenOrNone (mark '(') (mark ')') (argument depth)

/-- A directive after its mark. -/
def directive (depth : Nat) : Reader Directive := do
  let n ← name
  return ⟨n, ← arguments depth⟩

/-- A directive list, which may be empty. -/
def directives (depth : Nat) : Reader (List Directive) :=
  ledBy (mark '@') (directive depth)

/-! ## Selections -/

/-- Whether a fragment's type condition follows. -/
def typeCondition? : Reader (Option Name) := do
  if ← accept (.name "on") then return some (← name) else return none

/-- A selection whose selection sets nest less than `depth` deep. -/
def selection : Nat → Reader Written.Selection
  | 0 => failure
  | depth + 1 => do
      let braces := (mark '\x7b', mark '\x7d')
      if ← accept .ellipsis then
        -- `on`, a directive or a selection set follows an inline fragment; a name, a spread.
        match (← get) with
        | .name "on" :: _ | .punctuator _ :: _ => do
            let condition ← typeCondition?
            let ds ← directives depth
            return .inlineFragment condition ds (← between braces.1 braces.2 (selection depth))
        | _ => do
            let n ← name
            return .fragmentSpread n (← directives depth)
      else
        -- A name before a colon is a label, and the field's own name follows it.
        let first ← name
        let second ← if ← accept (mark ':') then some <$> name else pure none
        let as ← arguments depth
        let ds ← directives depth
        let selections ← betweenOrNone braces.1 braces.2 (selection depth)
        return .field (second.map fun _ => first) (second.getD first) as ds selections

def selectionSet (depth : Nat) : Reader (List Written.Selection) :=
  between (mark '\x7b') (mark '\x7d') (selection depth)

end Grammar
end SelectionGraph
