import SelectionGraph.Deferral
import SelectionGraph.Entity.Storage

/-!
# DirectSelections — the selections written in one selection set

An entity's tree gathers what is selected on it from everywhere.  Beside it stands what one
selection set of an operation or fragment says by itself:

- `TypeInfo`         : where a selection set sits, its entity and the scope in it;
- `DirectSelections` : the fields, inline fragments and fragment spreads of a selection set, each
  kept once for its key;
- `SelectionSet`     : direct selections in their place;
- `Field`            : a field of leaf type, or one that selects on an entity;
- `InlineSpread`, `NamedSpread` : fragments.

Keys are the response key of a field; the innermost scope and the deferral of an inline fragment;
the fragment's name and the deferral of a spread.
-/

namespace SelectionGraph

/-! ## Places -/

/-- Where a selection set sits. -/
structure TypeInfo where
  entity : EntityId
  rootType : Name
  scopePath : ScopePath
  isRootFieldType : Bool
  deriving BEq

namespace TypeInfo

def parentType (info : TypeInfo) : Name :=
  info.scopePath.typeOn info.rootType

/-- The conditions under which the innermost scope was entered. -/
def conditions (info : TypeInfo) : Option Conjunction :=
  info.scopePath.last?.bind Scope.conditions

def enter (info : TypeInfo) (scope : Scope) (isRootFieldType : Bool) : TypeInfo :=
  { info with scopePath := info.scopePath.append scope, isRootFieldType }

end TypeInfo

/-! ## Identities -/

/-- The identity of a field that selects on an entity: the definition it was built for, and its
number among the fields built for that. -/
structure FieldId where
  definition : DefinitionId
  ordinal : Nat
  deriving DecidableEq, Hashable, Repr

/-- The identity of the field at the root of a definition. -/
def DefinitionId.rootField (id : DefinitionId) : FieldId :=
  ⟨id, 0⟩

/-- A built fragment, as its spreads refer to it. -/
structure FragmentHandle where
  identity : FieldId
  name : Name
  typeCondition : Name
  deriving DecidableEq, Repr

/-! ## Selections -/

/-- A field of leaf type. -/
structure ScalarField where
  node : FieldSelection
  inclusion : Inclusion
  deriving BEq

/-- A spread of a named fragment. -/
structure NamedSpread where
  fragment : FragmentHandle
  typeInfo : TypeInfo
  inclusion : Inclusion
  deferral : Deferral

/-- Spreads are equal when they use the same built fragment in the same place, under the same
conditions and with the same deferral. -/
instance : BEq NamedSpread := ⟨fun s t =>
  s.fragment.identity == t.fragment.identity && s.typeInfo == t.typeInfo
    && s.inclusion == t.inclusion && s.deferral == t.deferral⟩

mutual

/-- The fields, inline fragments and fragment spreads of a selection set, in the order they were
first added. -/
structure DirectSelections where
  fields : List Field
  inlineFragments : List InlineSpread
  namedFragments : List NamedSpread

/-- Direct selections in their place. -/
structure SelectionSet where
  typeInfo : TypeInfo
  direct : DirectSelections

/-- A field. -/
inductive Field
  | scalar (field : ScalarField)
  | entity (field : EntityField)

/-- A field of composite type, which selects on an entity.  The field at the root of a definition is
not written anywhere and has no node. -/
structure EntityField where
  id : FieldId
  responseKey : Name
  type : TypeRef
  node : Option FieldSelection
  inclusion : Inclusion
  selectionSet : SelectionSet

/-- An inline fragment; its scope is the innermost one of its selection set. -/
structure InlineSpread where
  selectionSet : SelectionSet
  deferral : Deferral

end

/-! ## Keys and parts -/

namespace ScalarField

/-- The name under which a response holds the field. -/
def responseKey (f : ScalarField) : Name :=
  f.node.responseKey

def type (f : ScalarField) : TypeRef :=
  f.node.type

end ScalarField

namespace EntityField

def entity (f : EntityField) : EntityId :=
  f.selectionSet.typeInfo.entity

/-- The name of the field: that of its node, or else the response key. -/
def name (f : EntityField) : Name :=
  f.node.elim f.responseKey FieldSelection.name

end EntityField

namespace Field

/-- The name under which a response holds the field. -/
def responseKey : Field → Name
  | scalar f => f.responseKey
  | entity f => f.responseKey

def name : Field → Name
  | scalar f => f.node.name
  | entity f => f.name

def type : Field → TypeRef
  | scalar f => f.type
  | entity f => f.type

def inclusion : Field → Inclusion
  | scalar f => f.inclusion
  | entity f => f.inclusion

def entity? : Field → Option EntityField
  | scalar _ => none
  | entity f => some f

end Field

namespace InlineSpread

def typeInfo (s : InlineSpread) : TypeInfo :=
  s.selectionSet.typeInfo

def key (s : InlineSpread) : Option Scope × Deferral :=
  (s.typeInfo.scopePath.last?, s.deferral)

end InlineSpread

def NamedSpread.key (s : NamedSpread) : Name × Deferral :=
  (s.fragment.name, s.deferral)

namespace DirectSelections

def empty : DirectSelections :=
  ⟨[], [], []⟩

def isEmpty (d : DirectSelections) : Bool :=
  d.fields.isEmpty && d.inlineFragments.isEmpty && d.namedFragments.isEmpty

def field? (d : DirectSelections) (responseKey : Name) : Option Field :=
  d.fields.find? fun f => f.responseKey == responseKey

/-- The first spread of the fragment of a name, deferred or not. -/
def namedFragment? (d : DirectSelections) (name : Name) : Option NamedSpread :=
  d.namedFragments.find? fun s => s.fragment.name == name

end DirectSelections

/-- The entity field reached from this one through the fields of these response keys. -/
def EntityField.follow? (f : EntityField) : List Name → Option EntityField
  | [] => some f
  | key :: rest =>
      match (f.selectionSet.direct.field? key).bind Field.entity? with
      | none => none
      | some g => g.follow? rest

end SelectionGraph
