import SelectionGraph.Text.Json
import SelectionGraph.Language.TypeRef

/-!
# FieldPath — paths of fields through a response

- `PathComponent` : one step, a response key with the type of its field;
- `FieldPath`     : the steps from the root of a definition; the empty path is the root.
-/

namespace SelectionGraph

/-- A step of a path: the key of a field in the response, and its type. -/
structure PathComponent where
  name : Name
  type : TypeRef
  deriving DecidableEq, Repr

instance : Hashed PathComponent := ⟨fun c => hashParts c.name ++ hashParts c.type⟩

def PathComponent.toJson (c : PathComponent) : Json :=
  .object [("name", .string c.name), ("ty", .string c.type.render)]

def PathComponent.outline (c : PathComponent) : String :=
  "FieldPathComponent \x7b name: \"" ++ c.name ++ "\", ty: " ++ c.type.outline ++ " \x7d"

/-- A path of fields, from the root to the last. -/
structure FieldPath where
  components : List PathComponent
  deriving DecidableEq, Repr

namespace FieldPath

/-- A path is hashed from its last step to the first. -/
instance : Hashed FieldPath := ⟨fun path => hashParts path.components.reverse⟩

instance : Hashable FieldPath := Hashed.hashable FieldPath hash

def root : FieldPath :=
  ⟨[]⟩

def append (path : FieldPath) (component : PathComponent) : FieldPath :=
  ⟨path.components ++ [component]⟩

def appendAll (path : FieldPath) (components : List PathComponent) : FieldPath :=
  ⟨path.components ++ components⟩

def size (path : FieldPath) : Nat :=
  path.components.length

def isRoot (path : FieldPath) : Bool :=
  path.components.isEmpty

def last? (path : FieldPath) : Option PathComponent :=
  path.components.getLast?

/-- The response keys of a path, separated by points. -/
def render (path : FieldPath) : String :=
  ".".intercalate (path.components.map PathComponent.name)

def toJson (path : FieldPath) : Json :=
  .array (path.components.map PathComponent.toJson)

def outline (path : FieldPath) : String :=
  "[" ++ ", ".intercalate (path.components.map PathComponent.outline) ++ "]"

/-- Appending all steps at once is appending them one by one. -/
theorem appendAll_cons (path : FieldPath) (c : PathComponent) (cs : List PathComponent) :
    path.appendAll (c :: cs) = (path.append c).appendAll cs := by
  simp [appendAll, append]

end FieldPath
end SelectionGraph
