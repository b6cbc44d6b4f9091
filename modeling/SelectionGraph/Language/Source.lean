import SelectionGraph.Language.DefinitionGrammar

/-!
# Source — documents read from their text

- `Written.Source`         : the definitions of a document, each with its source text;
- `Written.Source.read?`   : a document from its text;
- `TypeRef.read?`, `Directive.readAll?` : a type reference, and a directive list, from their texts.

The source text of a definition runs from its first token to its last; comments and blanks around
it are not part of it, those inside are.
-/

namespace SelectionGraph

namespace Written

/-- A definition with the text it was written as. -/
structure Passage where
  definition : Definition
  text : String
  deriving Repr

/-- The definitions of a document, in the order of the text. -/
abbrev Source := List Passage

namespace Source

/-- Reads definitions up to the end.  Each takes at least one token. -/
def ofLexemes? (lexemes : List Lexeme) : Option Source :=
  if lexemes.isEmpty then some []
  else
    match Grammar.definition lexemes.length (lexemes.map Lexeme.token) with
    | none => none
    | some (definition, left) =>
        -- Tokens and lexemes correspond one to one, so what is left tells what was taken.
        let taken := lexemes.length - left.length
        if 0 < taken then
          let text := String.ofList (Lexeme.sourceText (lexemes.take taken))
          (ofLexemes? (lexemes.drop taken)).map (⟨definition, text⟩ :: ·)
        else none
termination_by lexemes.length
decreasing_by simp only [List.length_drop]; omega

/-- Reads a document, which holds at least one definition. -/
def read? (text : String) : Option Source := do
  let source ← ofLexemes? (← Lexeme.scan? text.toList)
  if source.isEmpty then none
  return source

end Source
end Written

/-! ## Parts of documents -/

def Reader.readAll? {α : Type} (reader : Nat → Reader α) (text : String) : Option α := do
  let tokens ← Token.scan? text.toList
  let (a, left) ← reader tokens.length tokens
  if left.isEmpty then return a else none

def TypeRef.read? (text : String) : Option TypeRef :=
  Reader.readAll? Grammar.typeRef text

def Directive.readAll? (text : String) : Option (List Directive) :=
  Reader.readAll? Grammar.directives text

end SelectionGraph
