import SelectionGraph.Proofs.Direct.Bare
import SelectionGraph.Proofs.Entity.Transport
import SelectionGraph.Proofs.Session.Gathered

/-!
# Bare — builds without the syntax they were made from

What is built keeps the definition it was built from: in the locations of its entities, in the nodes of
its fields, in fragments and operations themselves with their texts.  How a session goes on does not
depend on any of that beyond names, types and directives.

* `bare`             — what is built, without selections as they were written, without texts, and
  without the numbers of fields;
* `faithful_bare`    — a definition without its selections is still told from others;
* `mergeFragmentEntities_bare`, `addSpread_bare` and so on — builds are put together alike.
-/

namespace SelectionGraph

/-! ## Definitions -/

def OperationDefinition.bare (o : OperationDefinition) : OperationDefinition :=
  { o with selections := [] }

def FragmentDefinition.bare (f : FragmentDefinition) : FragmentDefinition :=
  { f with selections := [] }

def ExecutableDefinition.bare : ExecutableDefinition → ExecutableDefinition
  | operation o => operation o.bare
  | fragment f => fragment f.bare

def SourceDefinition.bare (source : SourceDefinition) : SourceDefinition :=
  { source with definition := source.definition.bare }

def EntityStorage.bare (s : EntityStorage) : EntityStorage :=
  s.transport SourceDefinition.bare

/-- A definition is told from others by its identity, and written in errors with its name. -/
theorem SourceDefinition.faithful_bare : SourceDefinition.Faithful SourceDefinition.bare where
  same _ _ := rfl
  render s := by
    obtain ⟨id, o | f⟩ := s <;> rfl

theorem SourceDefinition.rootType_bare (s : SourceDefinition) : s.bare.rootType = s.rootType := by
  obtain ⟨id, o | f⟩ := s <;> rfl

/-! ## Builds -/

mutual

def BuiltSelections.bare : BuiltSelections → BuiltSelections
  | ⟨rootField, referenced, entities, containsDeferred⟩ =>
      ⟨rootField.bare, NamedFragment.bareAll referenced, entities.bare, containsDeferred⟩

def NamedFragment.bareAll : List NamedFragment → List NamedFragment
  | [] => []
  | ⟨definition, built, _⟩ :: rest =>
      ⟨definition.bare, BuiltSelections.bare built, ""⟩ :: NamedFragment.bareAll rest

end

def NamedFragment.bare (f : NamedFragment) : NamedFragment :=
  ⟨f.definition.bare, f.built.bare, ""⟩

def Operation.bare (o : Operation) : Operation :=
  ⟨o.definition.bare, o.built.bare, ""⟩

def Draft.bare (d : Draft) : Draft :=
  ⟨d.entities.bare, d.referenced.map NamedFragment.bare, d.containsDeferred, 0⟩

def Progress.bare (p : Progress) : Progress :=
  { p with fragments := p.fragments.map NamedFragment.bare }

theorem NamedFragment.bareAll_eq (fragments : List NamedFragment) :
    bareAll fragments = fragments.map NamedFragment.bare := by
  induction fragments with
  | nil => rw [bareAll, List.map_nil]
  | cons f rest ih =>
      obtain ⟨definition, built, source⟩ := f
      rw [bareAll, ih]
      rfl

namespace BuiltSelections

theorem bare_mk (root : EntityField) (referenced : List NamedFragment) (entities : EntityStorage)
    (containsDeferred : Bool) : bare ⟨root, referenced, entities, containsDeferred⟩
      = ⟨root.bare, referenced.map NamedFragment.bare, entities.bare, containsDeferred⟩ := by
  rw [bare, NamedFragment.bareAll_eq]

@[simp] theorem rootField_bare (b : BuiltSelections) : b.bare.rootField = b.rootField.bare := by
  cases b
  rw [bare_mk]

@[simp] theorem referenced_bare (b : BuiltSelections) :
    b.bare.referenced = b.referenced.map NamedFragment.bare := by
  cases b
  rw [bare_mk]

@[simp] theorem entities_bare (b : BuiltSelections) : b.bare.entities = b.entities.bare := by
  cases b
  rw [bare_mk]

@[simp] theorem containsDeferred_bare (b : BuiltSelections) :
    b.bare.containsDeferred = b.containsDeferred := by
  cases b
  rw [bare_mk]

end BuiltSelections

@[simp] theorem NamedFragment.name_bare (f : NamedFragment) : f.bare.name = f.name := rfl

@[simp] theorem NamedFragment.handle_bare (f : NamedFragment) : f.bare.handle = f.handle.bare := by
  rw [handle, handle, identity, identity, bare, BuiltSelections.rootField_bare]
  rfl

/-! ## Steps -/

theorem Draft.start_bare (source : SourceDefinition) :
    (start source.bare).bare = (start source).bare := by
  have entities : (EntityStorage.start source.bare).bare = (EntityStorage.start source).bare := by
    obtain ⟨id, o | f⟩ := source <;> rfl
  rw [bare, start, entities]
  rfl

namespace EntityStorage

theorem require_bare (s : EntityStorage) (id : EntityId) (lookup : EntityLookup) :
    s.bare.require id lookup = (s.require id lookup).map (Entity.transport SourceDefinition.bare) :=
  require_transport s id lookup

theorem modifyTree_bare (s : EntityStorage) (id : EntityId)
    (change : SelectionTree → SelectionTree) :
    s.bare.modifyTree id change = (s.modifyTree id change).bare :=
  modifyTree_transport s id change

theorem entityForField_bare (s : EntityStorage) (enclosing : EntityId) (c : PathComponent) :
    s.bare.entityForField enclosing c
      = (s.entityForField enclosing c).map fun r => (r.1, r.2.bare) :=
  entityForField_transport SourceDefinition.faithful_bare s enclosing c

theorem mergeFragmentEntities_bare (s fragment : EntityStorage) (site : EntityId)
    (scope : ScopePath) (guard : Inclusion) :
    s.bare.mergeFragmentEntities site scope guard fragment.bare
      = (s.mergeFragmentEntities site scope guard fragment).map bare :=
  mergeFragmentEntities_transport SourceDefinition.faithful_bare s fragment site scope guard

end EntityStorage

namespace Walk

theorem spreadAlone_bare (info : TypeInfo) (s : NamedSpread) :
    spreadAlone info s.bare = (spreadAlone info s).bare := by
  have condition : s.bare.fragment.typeCondition = s.fragment.typeCondition := rfl
  rw [spreadAlone, spreadAlone, condition]
  cases spreadScope? info s.fragment.typeCondition with
  | none => exact s.bare_alone.symm
  | some _ =>
      dsimp only
      rw [InlineSpread.bare_alone, InlineSpread.bare, SelectionSet.bare, NamedSpread.bare_alone]
      rfl

end Walk
end SelectionGraph
