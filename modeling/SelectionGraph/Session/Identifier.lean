import SelectionGraph.Session.Built
import SelectionGraph.Text.Lines
import SelectionGraph.Text.Sha256
import SelectionGraph.Text.Hex

/-!
# Identifier — what an operation is known by

An operation is identified by the digest of its text and the texts of the fragments it uses.

- `identifierText`       : the text that is digested;
- `OperationIdentifier`  : the digest;
- `Operation.identifier` : the identifier of a built operation.

The texts are taken in their one-line form, which has no line feed, and a line feed separates them.
So the layout of a definition on lines does not matter, and no text can pass for part of another.
-/

namespace SelectionGraph

/-- The one-line forms of an operation's source and of its fragments' sources, in order, separated
by line feeds. -/
def identifierText (operation : String) (fragments : List String) : String :=
  singleLine operation ++ String.join (fragments.map fun source => "\n" ++ singleLine source)

/-- A digest as identifier. -/
structure OperationIdentifier where
  bytes : List UInt8
  deriving DecidableEq, Hashable, Repr

namespace OperationIdentifier

/-- The identifier of an operation with these sources. -/
def ofSources (operation : String) (fragments : List String) : OperationIdentifier :=
  ⟨Sha256.digest (identifierText operation fragments).toUTF8.data.toList⟩

def render (i : OperationIdentifier) : String :=
  Hex.ofBytes i.bytes

def outline (i : OperationIdentifier) : String :=
  "OperationIdentifier(\"" ++ i.render ++ "\")"

def toJson (i : OperationIdentifier) : Json :=
  .string i.render

end OperationIdentifier

def Operation.identifier (o : Operation) : OperationIdentifier :=
  .ofSources o.source (o.built.referenced.map NamedFragment.source)

end SelectionGraph
