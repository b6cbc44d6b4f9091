import SelectionGraph.Hashing

/-!
# TypeRef — references to types

A type reference names a type and says where lists and non-null marks stand, as in
`[Character!]!`.

- `Name`               : names of the language;
- `TypeRef`            : a reference, with non-null marks as part of each constructor, so that
  no reference has two marks in one place;
- `TypeRef.render`     : its text;
- `TypeRef.innerName`  : the type it names.
-/

namespace SelectionGraph

/-- A name of the language: of a type, a field, an argument, a variable, a fragment. -/
abbrev Name := String

/-- A reference to a type. -/
inductive TypeRef
  | named (name : Name)
  | nonNullNamed (name : Name)
  | list (item : TypeRef)
  | nonNullList (item : TypeRef)
  deriving DecidableEq, Repr

namespace TypeRef

/-- The constructor of a reference, and then what it is made of. -/
def hashParts : TypeRef → List HashPart
  | named name => [.variant 0, .text name]
  | nonNullNamed name => [.variant 1, .text name]
  | list item => .variant 2 :: item.hashParts
  | nonNullList item => .variant 3 :: item.hashParts

instance : Hashed TypeRef := ⟨hashParts⟩

/-- The reference with a non-null mark at its outside. -/
def nonNull : TypeRef → TypeRef
  | named name => nonNullNamed name
  | list item => nonNullList item
  | marked => marked

def innerName : TypeRef → Name
  | named name => name
  | nonNullNamed name => name
  | list item => item.innerName
  | nonNullList item => item.innerName

def render : TypeRef → String
  | named name => name
  | nonNullNamed name => name ++ "!"
  | list item => "[" ++ item.render ++ "]"
  | nonNullList item => "[" ++ item.render ++ "]!"

/-- The reference written out by its constructors, as in `List(Named("Int"))`. -/
def outline : TypeRef → String
  | named name => "Named(\"" ++ name ++ "\")"
  | nonNullNamed name => "NonNullNamed(\"" ++ name ++ "\")"
  | list item => "List(" ++ item.outline ++ ")"
  | nonNullList item => "NonNullList(" ++ item.outline ++ ")"

/-- A non-null mark does not change the type named. -/
@[simp] theorem innerName_nonNull (t : TypeRef) : t.nonNull.innerName = t.innerName := by
  cases t <;> rfl

end TypeRef
end SelectionGraph
