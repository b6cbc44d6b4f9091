import SelectionGraph.Inclusion.Conjunction

/-!
# Scope — type conditions below an entity

Selections inside `... on Human @include(if: $a)` are made in a scope of the enclosing entity.

- `Scope`     : a type condition, with the conditions under which it was entered;
- `ScopePath` : the scopes entered from the entity's own type, outermost first.
-/

namespace SelectionGraph

/-- A type condition that was entered, and the conditions under which it was. -/
structure Scope where
  typeCondition : Name
  conditions : Option Conjunction
  deriving BEq

instance : Hashed Scope := ⟨fun s => hashParts s.typeCondition ++ hashParts s.conditions⟩

def Scope.render (s : Scope) : String :=
  "... on " ++ s.typeCondition ++ s.conditions.elim "" Conjunction.directiveText

/-- The scopes between an entity's own type and a selection, outermost first. -/
structure ScopePath where
  scopes : List Scope
  deriving BEq

namespace ScopePath

instance : Hashed ScopePath := ⟨fun path => hashParts path.scopes⟩

instance : Hashable ScopePath := Hashed.hashable ScopePath hash

/-- The path of selections on the entity's own type. -/
def root : ScopePath :=
  ⟨[]⟩

def append (path : ScopePath) (scope : Scope) : ScopePath :=
  ⟨path.scopes ++ [scope]⟩

def concat (path below : ScopePath) : ScopePath :=
  ⟨path.scopes ++ below.scopes⟩

/-- Paths may be put below one another in either order. -/
theorem concat_assoc (p q r : ScopePath) : (p.concat q).concat r = p.concat (q.concat r) := by
  simp [concat]

/-- Nothing entered below a path is the path. -/
@[simp] theorem concat_root (p : ScopePath) : p.concat root = p := by
  simp [concat, root]

/-- A path below the root is the path. -/
@[simp] theorem root_concat (p : ScopePath) : root.concat p = p := by
  simp [concat, root]

def size (path : ScopePath) : Nat :=
  path.scopes.length

def isRoot (path : ScopePath) : Bool :=
  path.scopes.isEmpty

def last? (path : ScopePath) : Option Scope :=
  path.scopes.getLast?

/-- The type of the selections made here, on an entity of type `rootType`. -/
def typeOn (path : ScopePath) (rootType : Name) : Name :=
  path.last?.elim rootType Scope.typeCondition

def render (path : ScopePath) : String :=
  " > ".intercalate (path.scopes.map Scope.render)

end ScopePath
end SelectionGraph
