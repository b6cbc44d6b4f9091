import SelectionGraph.Inclusion.Disjunction
import SelectionGraph.Ordered
import SelectionGraph.Scope

/-!
# SelectionTree — what is selected on an entity

Everything that is selected on an entity, from wherever it is reached, grouped by the scope it is
selected in.

- `TypePath`        : the types of the entities from the root of a definition down to one;
- `MergedField`     : a field, with the conditions of all its selections;
- `ScopeSelections` : the fields and fragments of one scope;
- `SelectionTree`   : the scopes of an entity, each of them holding something;
- `insertField`, `insertFragment` : one selection more;
- `mergeTree`       : all selections of another tree, below a scope and under a guard.

Equality (`==`) of trees does not depend on the order of insertion.
-/

namespace SelectionGraph

/-! ## Types down to an entity -/

/-- The types from a definition's root to an entity: the enclosing ones, outermost first, and the
entity's own. -/
structure TypePath where
  enclosing : List Name
  own : Name
  deriving DecidableEq, Repr

namespace TypePath

def root (type : Name) : TypePath :=
  ⟨[], type⟩

def toList (path : TypePath) : List Name :=
  path.enclosing ++ [path.own]

/-- The path to an entity that the entity of `path` encloses. -/
def append (path : TypePath) (type : Name) : TypePath :=
  ⟨path.toList, type⟩

def appendAll (path : TypePath) (types : List Name) : TypePath :=
  types.foldl append path

@[simp] theorem toList_append (path : TypePath) (type : Name) :
    (path.append type).toList = path.toList ++ [type] := rfl

/-- The types of a longer path are those of the path and the added ones. -/
theorem toList_appendAll (path : TypePath) (types : List Name) :
    (path.appendAll types).toList = path.toList ++ types := by
  induction types generalizing path with
  | nil => simp [appendAll]
  | cons type rest ih =>
      have := ih (path.append type)
      simpa [appendAll] using this

end TypePath

/-! ## Selections of a scope -/

/-- A field as selected on an entity: its inclusion covers every place that selects it. -/
structure MergedField where
  responseKey : Name
  name : Name
  type : TypeRef
  inclusion : Inclusion
  deriving BEq

def MergedField.toJson (f : MergedField) : Json :=
  .object [("response_key", .string f.responseKey), ("name", .string f.name),
    ("ty", .string f.type.render), ("inclusion_conditions", f.inclusion.toJson)]

/-- The fields of a scope, by response key, and the fragments spread there, by name. -/
structure ScopeSelections where
  fields : List MergedField
  fragments : List (Name × Inclusion)

namespace ScopeSelections

instance : BEq ScopeSelections := ⟨fun s t =>
  Ordered.same MergedField.responseKey (· == ·) s.fields t.fields
    && Ordered.same Prod.fst (· == ·) s.fragments t.fragments⟩

def empty : ScopeSelections :=
  ⟨[], []⟩

def field? (s : ScopeSelections) (responseKey : Name) : Option MergedField :=
  s.fields.find? fun f => f.responseKey == responseKey

/-- When the fragment of a name is included, if it is spread here. -/
def fragment? (s : ScopeSelections) (name : Name) : Option Inclusion :=
  s.fragments.lookup name

/-- Adds a field.  Of a field that is there already only the inclusion changes. -/
def insertField (s : ScopeSelections) (f : MergedField) : ScopeSelections :=
  let change := fun (g : MergedField) => { g with inclusion := g.inclusion.merge f.inclusion }
  { s with fields := Ordered.upsert (fun g => g.responseKey == f.responseKey) change f s.fields }

def insertFragment (s : ScopeSelections) (name : Name) (inclusion : Inclusion) : ScopeSelections :=
  let change := fun (g : Name × Inclusion) => (g.1, g.2.merge inclusion)
  { s with fragments := Ordered.upsert (fun g => g.1 == name) change (name, inclusion) s.fragments }

/-- Whether adding a selection changes the inclusion held so far. -/
def changes (held : Option Inclusion) (added : Inclusion) : Bool :=
  match held with
  | none => true
  | some inclusion => inclusion.merge added != inclusion

def toJson (s : ScopeSelections) : Json :=
  .object
    [("fields", .object (s.fields.map fun f => (f.responseKey, f.toJson))),
     ("fragments", .object (s.fragments.map fun (name, inclusion) => (name, inclusion.toJson)))]

end ScopeSelections

/-! ## Trees -/

/-- The selections on an entity, by scope. -/
structure SelectionTree where
  typePath : TypePath
  scopes : List (ScopePath × ScopeSelections)

namespace SelectionTree

instance : BEq SelectionTree := ⟨fun s t =>
  s.typePath == t.typePath && Ordered.same Prod.fst (fun a b => a.2 == b.2) s.scopes t.scopes⟩

/-- The tree of an entity on which nothing is selected yet. -/
def empty (typePath : TypePath) : SelectionTree :=
  ⟨typePath, []⟩

def rootType (t : SelectionTree) : Name :=
  t.typePath.own

def scopeType (t : SelectionTree) (path : ScopePath) : Name :=
  path.typeOn t.rootType

def isEmpty (t : SelectionTree) : Bool :=
  t.scopes.isEmpty

def scope? (t : SelectionTree) (path : ScopePath) : Option ScopeSelections :=
  (t.scopes.find? fun s => s.1 == path).map Prod.snd

/-- Changes the selections of a scope, which starts empty. -/
def modifyScope (t : SelectionTree) (path : ScopePath)
    (change : ScopeSelections → ScopeSelections) : SelectionTree :=
  let changeAt := fun (s : ScopePath × ScopeSelections) => (s.1, change s.2)
  { t with scopes := Ordered.upsert (fun s => s.1 == path) changeAt (path, change .empty) t.scopes }

def insertField (t : SelectionTree) (path : ScopePath) (f : MergedField) : SelectionTree :=
  t.modifyScope path (·.insertField f)

def insertFragment (t : SelectionTree) (path : ScopePath) (name : Name) (inclusion : Inclusion) :
    SelectionTree :=
  t.modifyScope path (·.insertFragment name inclusion)

/-- Whether adding this field to a scope changes the tree. -/
def fieldChanges (t : SelectionTree) (path : ScopePath) (f : MergedField) : Bool :=
  let held := (t.scope? path).bind (·.field? f.responseKey)
  ScopeSelections.changes (held.map MergedField.inclusion) f.inclusion

/-- Whether adding this spread to a scope changes the tree. -/
def fragmentChanges (t : SelectionTree) (path : ScopePath) (name : Name) (inclusion : Inclusion) :
    Bool :=
  ScopeSelections.changes ((t.scope? path).bind (·.fragment? name)) inclusion

/-! ## Merging -/

/-- Adds the fields and fragments of one scope to the scope `target`, each restricted to the guard;
those that contradict the guard are dropped. -/
def mergeScope (t : SelectionTree) (target : ScopePath) (guard : Inclusion)
    (s : ScopeSelections) : SelectionTree :=
  let withFields := s.fields.foldl (fun t f =>
    match f.inclusion.under guard with
    | none => t
    | some inclusion => t.insertField target { f with inclusion }) t
  s.fragments.foldl (fun t (name, inclusion) =>
    match inclusion.under guard with
    | none => t
    | some inclusion => t.insertFragment target name inclusion) withFields

/-- Adds all selections of another tree, below the scope `site` and restricted to the guard. -/
def mergeTree (t other : SelectionTree) (site : ScopePath) (guard : Inclusion) : SelectionTree :=
  other.scopes.foldl (fun t (path, s) => t.mergeScope (site.concat path) guard s) t

end SelectionTree
end SelectionGraph
