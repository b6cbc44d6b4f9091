import SelectionGraph.Direct.Merge
import SelectionGraph.FieldCollector
import SelectionGraph.Schema.View
import SelectionGraph.Inclusion.OfDirectives
import SelectionGraph.Session.Built

/-!
# Walk — from the selections of a definition to what they come to

- `Progress` : what a session has built and collected so far; a failure does not undo it;
- `Build`    : steps that use it and may fail;
- `Draft`    : what the walk of one definition has put together so far;
- `Walk`     : steps that use both;
- `Walk.all` : the walk of a list of selections, which adds them to the direct selections of their
  set and to the trees of the entities they reach;
- `Build.selections` : the whole walk of a definition.

The walk follows the selections in order and depth first.  A selection that is never included is
passed over together with everything below it.  How a fragment is had by its name is a parameter:
the walk itself goes no deeper than the definition it is given.
-/

namespace SelectionGraph

/-! ## Steps of a session -/

/-- What a session has done so far: the fields collected, the fragments built, in the order they
were finished, and the next identity of a definition. -/
structure Progress where
  collector : FieldCollector
  fragments : List NamedFragment
  nextDefinition : Nat

/-- A step that may fail; progress made before a failure stays. -/
abbrev Build (α : Type) := ExceptT BuildError (StateM Progress) α

namespace Build

def freshDefinition : Build DefinitionId := do
  let progress ← get
  set { progress with nextDefinition := progress.nextDefinition + 1 }
  return ⟨progress.nextDefinition⟩

def collect (parent field : Name) (type : TypeRef) : Build Unit :=
  modify fun progress =>
    { progress with collector := progress.collector.collect parent field type }

end Build

/-! ## Steps of a walk -/

/-- What the walk of a definition has put together: its entities, the fragments it uses, whether
anything is deferred, and the number of the next field. -/
structure Draft where
  entities : EntityStorage
  referenced : List NamedFragment
  containsDeferred : Bool
  nextField : Nat

/-- The draft of a definition before its walk.  The field at its root has number zero. -/
def Draft.start (source : SourceDefinition) : Draft :=
  ⟨.start source, [], false, 1⟩

/-- A step of a walk. -/
abbrev Walk (α : Type) := StateT Draft (ExceptT BuildError (StateM Progress)) α

namespace Walk

/-- The result of a function that may fail. -/
def ofExcept {α : Type} : Except BuildError α → Walk α
  | .ok a => pure a
  | .error e => throw e

def ofBuild {α : Type} (step : Build α) : Walk α :=
  StateT.lift step

def freshField : Walk FieldId := do
  let draft ← getThe Draft
  set { draft with nextField := draft.nextField + 1 }
  return ⟨draft.entities.source.id, draft.nextField⟩

def noteDeferred (isDeferred : Bool) : Walk Unit :=
  modifyThe Draft fun draft => { draft with containsDeferred := draft.containsDeferred || isDeferred }

/-- Changes the tree of an entity, which has to be there to select on. -/
def modifyTree (id : EntityId) (change : SelectionTree → SelectionTree) : Walk Unit := do
  let draft ← getThe Draft
  let _ ← ofExcept (draft.entities.require id .toSelectOn)
  set { draft with entities := draft.entities.modifyTree id change }

def entityForField (enclosing : EntityId) (component : PathComponent) : Walk EntityId := do
  let draft ← getThe Draft
  let (id, entities) ← ofExcept (draft.entities.entityForField enclosing component)
  set { draft with entities }
  return id

/-- Merges the entities of a fragment into those reached from its spread at a place. -/
def mergeFragmentEntities (site : TypeInfo) (guard : Inclusion) (fragment : NamedFragment) :
    Walk Unit := do
  let draft ← getThe Draft
  let entities ← ofExcept
    (draft.entities.mergeFragmentEntities site.entity site.scopePath guard fragment.built.entities)
  set { draft with entities }

/-- The list with one more fragment, unless one of its name is there. -/
def addReference (referenced : List NamedFragment) (f : NamedFragment) : List NamedFragment :=
  if referenced.any fun g => g.name == f.name then referenced else referenced ++ [f]

def recordReference (f : NamedFragment) : Walk Unit :=
  modifyThe Draft fun draft =>
    { draft with referenced := (f :: f.built.referenced).foldl addReference draft.referenced }

/-! ## Fragment spreads -/

/-- The scope that the spread of a fragment opens: none where its type condition is the type selected
on already. -/
def spreadScope? (info : TypeInfo) (typeCondition : Name) : Option Scope :=
  if typeCondition == info.parentType then none else some ⟨typeCondition, none⟩

/-- The place of a spread in the set at `info`: inside the scope that it opens. -/
def spreadSite (view : SchemaView) (info : TypeInfo) (typeCondition : Name) : TypeInfo :=
  match spreadScope? info typeCondition with
  | none => info
  | some scope => info.enter scope (view.isRootFieldType typeCondition)

/-- Adds a spread to a set, in the scope that it opens if it opens one. -/
def addSpread (info : TypeInfo) (direct : DirectSelections) (spread : NamedSpread) :
    Except BuildError DirectSelections :=
  match spreadScope? info spread.fragment.typeCondition with
  | none => .ok (direct.addSpread spread)
  | some _ =>
      direct.addInline ⟨⟨spread.typeInfo, DirectSelections.empty.addSpread spread⟩, .immediate⟩

def spread (view : SchemaView) (fragmentNamed : Name → Build NamedFragment) (info : TypeInfo)
    (direct : DirectSelections) (name : Name) (directives : List Directive) :
    Walk DirectSelections := do
  match ← ofExcept (Inclusion.ofDirectives directives) with
  | none => return direct
  | some inclusion =>
      let deferral ← ofExcept (Deferral.ofDirectives directives)
      let fragment ← ofBuild (fragmentNamed name)
      recordReference fragment
      noteDeferred (deferral.isDeferred || fragment.built.containsDeferred)
      -- The fragment's selections land in its own scope; the spread is noted where it stands.
      let site := spreadSite view info fragment.definition.typeCondition
      mergeFragmentEntities site inclusion fragment
      modifyTree info.entity fun t => t.insertFragment info.scopePath fragment.name inclusion
      ofExcept (addSpread info direct ⟨fragment.handle, site, inclusion, deferral⟩)

/-! ## The walk -/

mutual

/-- Walks a selection of the set at `info`, and adds it to the set's direct selections. -/
def one (view : SchemaView) (fragmentNamed : Name → Build NamedFragment) (info : TypeInfo)
    (direct : DirectSelections) : Selection → Walk DirectSelections
  | .field ⟨label, definition, arguments, directives, selections⟩ => do
      let node : FieldSelection := ⟨label, definition, arguments, directives, selections⟩
      match ← ofExcept (Inclusion.ofDirectives directives) with
      | none => return direct
      | some inclusion =>
          -- The field counts as selected before anything below it can fail.
          ofBuild (Build.collect info.parentType node.name node.type)
          modifyTree info.entity fun t =>
            t.insertField info.scopePath ⟨node.responseKey, node.name, node.type, inclusion⟩
          let fieldType := node.type.innerName
          if ← ofExcept (view.isComposite fieldType) then
            let entity ← entityForField info.entity ⟨node.responseKey, node.type⟩
            let inner : TypeInfo := ⟨entity, fieldType, .root, view.isRootFieldType fieldType⟩
            let below ← all view fragmentNamed inner .empty selections
            let id ← freshField
            ofExcept (direct.addField (.entity
              ⟨id, node.responseKey, node.type, some node, inclusion, ⟨inner, below⟩⟩))
          else ofExcept (direct.addField (.scalar ⟨node, inclusion⟩))
  | .inlineFragment condition directives selections => do
      match (← ofExcept (Verdict.ofDirectives directives)).scope? with
      | none => return direct
      | some conditions =>
          let deferral ← ofExcept (Deferral.ofDirectives directives)
          noteDeferred deferral.isDeferred
          let type := condition.getD info.parentType
          -- A fragment that adds neither type, condition nor deferral is part of its set.
          if type == info.parentType && conditions.isNone && !deferral.isDeferred then
            all view fragmentNamed info direct selections
          else
            let inner := info.enter ⟨type, conditions⟩ (view.isRootFieldType type)
            let below ← all view fragmentNamed inner .empty selections
            ofExcept (direct.addInline ⟨⟨inner, below⟩, deferral⟩)
  | .fragmentSpread name directives => spread view fragmentNamed info direct name directives

/-- Walks selections of the set at `info`, in order. -/
def all (view : SchemaView) (fragmentNamed : Name → Build NamedFragment) (info : TypeInfo)
    (direct : DirectSelections) : List Selection → Walk DirectSelections
  | [] => return direct
  | s :: ss => do
      all view fragmentNamed info (← one view fragmentNamed info direct s) ss

end

end Walk

/-! ## The walk of a definition -/

/-- What the selections of a definition come to; the field at its root has the name `rootName`. -/
def Build.selections (view : SchemaView) (fragmentNamed : Name → Build NamedFragment)
    (definition : ExecutableDefinition) (rootName : Name) (selections : List Selection) :
    Build BuiltSelections := do
  let source : SourceDefinition := ⟨← freshDefinition, definition⟩
  let type := source.rootType
  let info : TypeInfo := ⟨.root, type, .root, view.isRootFieldType type⟩
  let (direct, draft) ← (Walk.all view fragmentNamed info .empty selections).run (.start source)
  let rootField : EntityField :=
    ⟨source.id.rootField, rootName, .nonNullNamed type, none, .always, ⟨info, direct⟩⟩
  return ⟨rootField, draft.referenced, draft.entities, draft.containsDeferred⟩

end SelectionGraph
