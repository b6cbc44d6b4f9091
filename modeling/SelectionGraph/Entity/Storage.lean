import SelectionGraph.BuildError
import SelectionGraph.Entity.SelectionTree
import SelectionGraph.Location

/-!
# Storage — the entities of a definition

An entity is an object of the response, identified by where it is selected.  Whatever reaches the
same location selects on the same entity.

- `EntityId`              : the place of an entity in its storage;
- `Entity`                : an entity with its location and its tree;
- `EntityStorage`         : the entities of one definition, its root first;
- `entityAt`              : the entity of a location, created when it is not there;
- `entityForField`        : the entity that a field selects;
- `mergeFragmentEntities` : all entities of a fragment, as reached from one of its spreads.
-/

namespace SelectionGraph

/-! ## Entities -/

/-- The number of an entity in the storage of its definition. -/
structure EntityId where
  index : Nat
  deriving DecidableEq, Repr

namespace EntityId

def root : EntityId :=
  ⟨0⟩

def render (id : EntityId) : String :=
  "#" ++ toString id.index

end EntityId

/-- An entity. -/
structure Entity where
  id : EntityId
  location : Location
  tree : SelectionTree

def Entity.rootType (e : Entity) : Name :=
  e.tree.rootType

/-! ## Storages -/

/-- The entities of one operation or fragment, in the order they were first reached. -/
structure EntityStorage where
  source : SourceDefinition
  entities : List Entity

namespace EntityStorage

/-- A storage that holds the root only. -/
def start (source : SourceDefinition) : EntityStorage :=
  ⟨source, [⟨.root, .root source, .empty (.root source.rootType)⟩]⟩

def get? (s : EntityStorage) (id : EntityId) : Option Entity :=
  s.entities[id.index]?

def atLocation? (s : EntityStorage) (location : Location) : Option Entity :=
  s.entities.find? fun e => e.location == location

/-- The entity of an identifier, which has to be there for what it is looked up for. -/
def require (s : EntityStorage) (id : EntityId) (lookup : EntityLookup) : Except BuildError Entity :=
  match s.get? id with
  | some e => .ok e
  | none => .error (.unknownEntity id.index lookup)

def get (s : EntityStorage) (id : EntityId) : Except BuildError Entity :=
  s.require id (.inSource s.source.render)

def modifyTree (s : EntityStorage) (id : EntityId) (change : SelectionTree → SelectionTree) :
    EntityStorage :=
  { s with entities := s.entities.modify id.index fun e => { e with tree := change e.tree } }

/-- The entity at a location, and the storage with it.  An entity that is not there yet comes last
and has an empty tree. -/
def entityAt (s : EntityStorage) (location : Location) (typePath : TypePath) :
    Entity × EntityStorage :=
  match s.atLocation? location with
  | some e => (e, s)
  | none =>
      let e : Entity := ⟨⟨s.entities.length⟩, location, .empty typePath⟩
      (e, { s with entities := s.entities ++ [e] })

/-- The entity that a field on the entity `enclosing` selects. -/
def entityForField (s : EntityStorage) (enclosing : EntityId) (component : PathComponent) :
    Except BuildError (EntityId × EntityStorage) := do
  let e ← s.get enclosing
  let typePath := e.tree.typePath.append component.type.innerName
  let (selected, s) := s.entityAt (e.location.append component) typePath
  return (selected.id, s)

/-! ## Entities of a fragment -/

/-- Merges one entity of a fragment into the entity that it is reached as from the spread on
`site`. -/
def mergeEntity (s : EntityStorage) (site : Entity) (scope : ScopePath) (guard : Inclusion)
    (added : Entity) : Except BuildError EntityStorage := do
  if added.location.isRoot then
    let (e, s) := s.entityAt site.location site.tree.typePath
    return s.modifyTree e.id fun t => t.mergeTree added.tree scope guard
  else
    -- The types down to the site, then those of the fragment without its root's.
    let location := site.location.appendAll added.location.path.components
    let typePath := site.tree.typePath.appendAll added.tree.typePath.toList.tail
    let (e, s) := s.entityAt location typePath
    if e.rootType == added.rootType then
      return s.modifyTree e.id fun t => t.mergeTree added.tree .root .always
    else throw (.rootTypeConflict e.location.render e.rootType added.rootType)

/-- Merges every entity of a fragment into those reached from its spread on `site`.  The fragment's
root merges into `site` itself, below `scope` and restricted to the guard.  The others are merged as
they are: only the fields of the root through which they are reached carry the guard. -/
def mergeFragmentEntities (s : EntityStorage) (site : EntityId) (scope : ScopePath)
    (guard : Inclusion) (fragment : EntityStorage) : Except BuildError EntityStorage := do
  let e ← s.get site
  fragment.entities.foldlM (fun s added => s.mergeEntity e scope guard added) s

end EntityStorage
end SelectionGraph
