import Mathlib.Logic.Function.Basic
import SelectionGraph.Proofs.Entity.Storage
import SelectionGraph.Proofs.Entity.Transport
import SelectionGraph.Proofs.Session.Steps

/-!
# Rename — builds under other identities

The identity of a definition is a number that a session hands out.  What is built bears it in the
identities of its fields, in the locations of its entities and in the references to fragments; it
must not matter which number it is.

* `rename`                — what is built, with other identities;
* `rename_id`, `rename_rename` — renaming by nothing, and twice;
* `mergeFragmentEntities_rename`, `mergeFields_rename` and so on — the functions that put builds
  together do the same under other identities, as long as different ones stay different.
-/

namespace SelectionGraph

/-! ## Renaming -/

variable (ρ σ : DefinitionId → DefinitionId)

def FieldId.rename (id : FieldId) : FieldId :=
  { id with definition := ρ id.definition }

def SourceDefinition.rename (source : SourceDefinition) : SourceDefinition :=
  { source with id := ρ source.id }

def Location.rename (l : Location) : Location :=
  { l with source := l.source.rename ρ }

def Entity.rename (e : Entity) : Entity :=
  { e with location := e.location.rename ρ }

def EntityStorage.rename (s : EntityStorage) : EntityStorage :=
  ⟨s.source.rename ρ, s.entities.map (Entity.rename ρ)⟩

def FragmentHandle.rename (f : FragmentHandle) : FragmentHandle :=
  { f with identity := f.identity.rename ρ }

def NamedSpread.rename (s : NamedSpread) : NamedSpread :=
  { s with fragment := s.fragment.rename ρ }

namespace DirectSelections

mutual

def rename : DirectSelections → DirectSelections
  | ⟨fields, inlineFragments, namedFragments⟩ =>
      ⟨renameFields fields, renameInlines inlineFragments, namedFragments.map (NamedSpread.rename ρ)⟩

def renameFields : List Field → List Field
  | [] => []
  | .scalar f :: rest => .scalar f :: renameFields rest
  | .entity ⟨id, responseKey, type, node, inclusion, ⟨typeInfo, direct⟩⟩ :: rest =>
      .entity ⟨id.rename ρ, responseKey, type, node, inclusion, ⟨typeInfo, rename direct⟩⟩
        :: renameFields rest

def renameInlines : List InlineSpread → List InlineSpread
  | [] => []
  | ⟨⟨typeInfo, direct⟩, deferral⟩ :: rest =>
      ⟨⟨typeInfo, rename direct⟩, deferral⟩ :: renameInlines rest

end

end DirectSelections

def SelectionSet.rename (s : SelectionSet) : SelectionSet :=
  { s with direct := s.direct.rename ρ }

def EntityField.rename (f : EntityField) : EntityField :=
  { f with id := f.id.rename ρ, selectionSet := f.selectionSet.rename ρ }

def Field.rename : Field → Field
  | scalar f => scalar f
  | entity f => entity (f.rename ρ)

def InlineSpread.rename (s : InlineSpread) : InlineSpread :=
  { s with selectionSet := s.selectionSet.rename ρ }

mutual

def BuiltSelections.rename : BuiltSelections → BuiltSelections
  | ⟨rootField, referenced, entities, containsDeferred⟩ =>
      ⟨rootField.rename ρ, NamedFragment.renameAll referenced, entities.rename ρ, containsDeferred⟩

def NamedFragment.renameAll : List NamedFragment → List NamedFragment
  | [] => []
  | ⟨definition, built, source⟩ :: rest =>
      ⟨definition, BuiltSelections.rename built, source⟩ :: NamedFragment.renameAll rest

end

def NamedFragment.rename (f : NamedFragment) : NamedFragment :=
  { f with built := f.built.rename ρ }

def Operation.rename (o : Operation) : Operation :=
  { o with built := o.built.rename ρ }

def Draft.rename (d : Draft) : Draft :=
  { d with entities := d.entities.rename ρ, referenced := d.referenced.map (NamedFragment.rename ρ) }

/-! ## Lists -/

namespace DirectSelections

theorem renameFields_eq (fields : List Field) : renameFields ρ fields = fields.map (Field.rename ρ) := by
  induction fields with
  | nil => rw [renameFields, List.map_nil]
  | cons f rest ih =>
      rcases f with f | ⟨id, responseKey, type, node, inclusion, ⟨typeInfo, direct⟩⟩
      · rw [renameFields, ih]
        rfl
      · rw [renameFields, ih]
        rfl

theorem renameInlines_eq (inlines : List InlineSpread) :
    renameInlines ρ inlines = inlines.map (InlineSpread.rename ρ) := by
  induction inlines with
  | nil => rw [renameInlines, List.map_nil]
  | cons s rest ih =>
      obtain ⟨⟨typeInfo, direct⟩, deferral⟩ := s
      rw [renameInlines, ih]
      rfl

theorem rename_mk (fields : List Field) (inlines : List InlineSpread) (spreads : List NamedSpread) :
    rename ρ ⟨fields, inlines, spreads⟩ = ⟨fields.map (Field.rename ρ),
      inlines.map (InlineSpread.rename ρ), spreads.map (NamedSpread.rename ρ)⟩ := by
  rw [rename, renameFields_eq, renameInlines_eq]

@[simp] theorem fields_rename (d : DirectSelections) :
    (d.rename ρ).fields = d.fields.map (Field.rename ρ) := by
  obtain ⟨fields, inlines, spreads⟩ := d
  rw [rename_mk]

@[simp] theorem inlineFragments_rename (d : DirectSelections) :
    (d.rename ρ).inlineFragments = d.inlineFragments.map (InlineSpread.rename ρ) := by
  obtain ⟨fields, inlines, spreads⟩ := d
  rw [rename_mk]

@[simp] theorem rename_empty : empty.rename ρ = empty := by
  rw [empty, rename_mk]
  rfl

end DirectSelections

theorem NamedFragment.renameAll_eq (fragments : List NamedFragment) :
    renameAll ρ fragments = fragments.map (NamedFragment.rename ρ) := by
  induction fragments with
  | nil => rw [renameAll, List.map_nil]
  | cons f rest ih =>
      obtain ⟨definition, built, source⟩ := f
      rw [renameAll, ih]
      rfl

theorem BuiltSelections.rename_mk (root : EntityField) (referenced : List NamedFragment)
    (entities : EntityStorage) (containsDeferred : Bool) :
    rename ρ ⟨root, referenced, entities, containsDeferred⟩ = ⟨root.rename ρ,
      referenced.map (NamedFragment.rename ρ), entities.rename ρ, containsDeferred⟩ := by
  rw [rename, NamedFragment.renameAll_eq]

namespace BuiltSelections

@[simp] theorem rootField_rename (b : BuiltSelections) :
    (b.rename ρ).rootField = b.rootField.rename ρ := by
  cases b
  rw [rename_mk]

@[simp] theorem referenced_rename (b : BuiltSelections) :
    (b.rename ρ).referenced = b.referenced.map (NamedFragment.rename ρ) := by
  cases b
  rw [rename_mk]

@[simp] theorem entities_rename (b : BuiltSelections) :
    (b.rename ρ).entities = b.entities.rename ρ := by
  cases b
  rw [rename_mk]

@[simp] theorem containsDeferred_rename (b : BuiltSelections) :
    (b.rename ρ).containsDeferred = b.containsDeferred := by
  cases b
  rw [rename_mk]

end BuiltSelections

@[simp] theorem NamedFragment.handle_rename (f : NamedFragment) :
    (f.rename ρ).handle = f.handle.rename ρ := by
  rw [handle, handle, identity, identity, rename, BuiltSelections.rootField_rename]
  rfl

/-! ## Renaming by nothing, and twice -/

theorem NamedSpread.rename_id : NamedSpread.rename id = id := rfl

theorem NamedSpread.rename_rename : NamedSpread.rename ρ ∘ NamedSpread.rename σ
    = NamedSpread.rename (ρ ∘ σ) := rfl

namespace DirectSelections

mutual

theorem rename_id : ∀ d : DirectSelections, d.rename id = d
  | ⟨fields, inlines, spreads⟩ => by
      rw [rename, renameFields_id fields, renameInlines_id inlines, NamedSpread.rename_id, List.map_id]

theorem renameFields_id : ∀ fields : List Field, renameFields id fields = fields
  | [] => by rw [renameFields]
  | .scalar f :: rest => by rw [renameFields, renameFields_id rest]
  | .entity ⟨i, responseKey, type, node, inclusion, ⟨typeInfo, direct⟩⟩ :: rest => by
      rw [renameFields, rename_id direct, renameFields_id rest]
      rfl

theorem renameInlines_id : ∀ inlines : List InlineSpread, renameInlines id inlines = inlines
  | [] => by rw [renameInlines]
  | ⟨⟨typeInfo, direct⟩, deferral⟩ :: rest => by
      rw [renameInlines, rename_id direct, renameInlines_id rest]

end

mutual

theorem rename_rename : ∀ d : DirectSelections, (d.rename σ).rename ρ = d.rename (ρ ∘ σ)
  | ⟨fields, inlines, spreads⟩ => by
      simp only [rename, renameFields_rename fields, renameInlines_rename inlines, List.map_map,
        NamedSpread.rename_rename]

theorem renameFields_rename : ∀ fields : List Field,
    renameFields ρ (renameFields σ fields) = renameFields (ρ ∘ σ) fields
  | [] => by simp only [renameFields]
  | .scalar f :: rest => by simp only [renameFields, renameFields_rename rest]
  | .entity ⟨id, responseKey, type, node, inclusion, ⟨typeInfo, direct⟩⟩ :: rest => by
      simp only [renameFields, rename_rename direct, renameFields_rename rest]
      rfl

theorem renameInlines_rename : ∀ inlines : List InlineSpread,
    renameInlines ρ (renameInlines σ inlines) = renameInlines (ρ ∘ σ) inlines
  | [] => by simp only [renameInlines]
  | ⟨⟨typeInfo, direct⟩, deferral⟩ :: rest => by
      simp only [renameInlines, rename_rename direct, renameInlines_rename rest]

end

end DirectSelections

theorem EntityField.rename_rename (f : EntityField) : (f.rename σ).rename ρ = f.rename (ρ ∘ σ) := by
  simp only [EntityField.rename, SelectionSet.rename, DirectSelections.rename_rename]
  rfl

theorem EntityStorage.rename_id (s : EntityStorage) : s.rename id = s := by
  rw [EntityStorage.rename, show Entity.rename id = id from rfl, List.map_id]
  rfl

theorem EntityStorage.rename_rename (s : EntityStorage) :
    (s.rename σ).rename ρ = s.rename (ρ ∘ σ) := by
  simp only [EntityStorage.rename, List.map_map]
  rfl

mutual

theorem BuiltSelections.rename_id : ∀ b : BuiltSelections, b.rename id = b
  | ⟨⟨i, responseKey, type, node, inclusion, ⟨typeInfo, direct⟩⟩, referenced, entities,
      containsDeferred⟩ => by
      rw [BuiltSelections.rename, EntityField.rename, SelectionSet.rename, DirectSelections.rename_id,
        NamedFragment.renameAll_id referenced, entities.rename_id]
      rfl

theorem NamedFragment.renameAll_id : ∀ fragments : List NamedFragment,
    NamedFragment.renameAll id fragments = fragments
  | [] => by rw [NamedFragment.renameAll]
  | ⟨definition, built, source⟩ :: rest => by
      rw [NamedFragment.renameAll, BuiltSelections.rename_id built, NamedFragment.renameAll_id rest]

end

mutual

theorem BuiltSelections.rename_rename : ∀ b : BuiltSelections,
    (b.rename σ).rename ρ = b.rename (ρ ∘ σ)
  | ⟨root, referenced, entities, containsDeferred⟩ => by
      simp only [BuiltSelections.rename, EntityField.rename_rename, EntityStorage.rename_rename,
        NamedFragment.renameAll_renameAll referenced]

theorem NamedFragment.renameAll_renameAll : ∀ fragments : List NamedFragment,
    NamedFragment.renameAll ρ (NamedFragment.renameAll σ fragments)
      = NamedFragment.renameAll (ρ ∘ σ) fragments
  | [] => by simp only [NamedFragment.renameAll]
  | ⟨definition, built, source⟩ :: rest => by
      simp only [NamedFragment.renameAll, BuiltSelections.rename_rename built,
        NamedFragment.renameAll_renameAll rest]

end

theorem NamedFragment.rename_id (f : NamedFragment) : f.rename id = f := by
  cases f
  rw [NamedFragment.rename, BuiltSelections.rename_id]

theorem NamedFragment.rename_rename (f : NamedFragment) :
    (f.rename σ).rename ρ = f.rename (ρ ∘ σ) := by
  simp only [NamedFragment.rename, BuiltSelections.rename_rename]

theorem Operation.rename_id (o : Operation) : o.rename id = o := by
  rw [Operation.rename, BuiltSelections.rename_id]

theorem Operation.rename_rename (o : Operation) : (o.rename σ).rename ρ = o.rename (ρ ∘ σ) := by
  simp only [Operation.rename, BuiltSelections.rename_rename]

/-! ## Entities -/

section Injective

variable {ρ} (inj : Function.Injective ρ)

include inj

/-- Definitions have other identities, and are the same definitions if they were. -/
theorem SourceDefinition.faithful_rename : SourceDefinition.Faithful (SourceDefinition.rename ρ) where
  same s t := by
    change (ρ s.id == ρ t.id) = (s.id == t.id)
    rw [Bool.eq_iff_iff, beq_iff_eq, beq_iff_eq]
    exact inj.eq_iff
  render _ := rfl

namespace EntityStorage

omit inj in
theorem require_rename (s : EntityStorage) (id : EntityId) (lookup : EntityLookup) :
    (s.rename ρ).require id lookup = (s.require id lookup).map (Entity.rename ρ) :=
  require_transport s id lookup

omit inj in
theorem modifyTree_rename (s : EntityStorage) (id : EntityId)
    (change : SelectionTree → SelectionTree) :
    (s.rename ρ).modifyTree id change = (s.modifyTree id change).rename ρ :=
  modifyTree_transport s id change

theorem entityForField_rename (s : EntityStorage) (enclosing : EntityId) (c : PathComponent) :
    (s.rename ρ).entityForField enclosing c
      = (s.entityForField enclosing c).map fun r => (r.1, r.2.rename ρ) :=
  entityForField_transport (SourceDefinition.faithful_rename inj) s enclosing c

theorem mergeFragmentEntities_rename (s fragment : EntityStorage) (site : EntityId)
    (scope : ScopePath) (guard : Inclusion) :
    (s.rename ρ).mergeFragmentEntities site scope guard (fragment.rename ρ)
      = (s.mergeFragmentEntities site scope guard fragment).map (rename ρ) :=
  mergeFragmentEntities_transport (SourceDefinition.faithful_rename inj) s fragment site scope guard

end EntityStorage

end Injective

/-! ## Direct selections -/

section Direct

variable {ρ}

@[simp] theorem Field.responseKey_rename (f : Field) : (f.rename ρ).responseKey = f.responseKey := by
  cases f <;> rfl

@[simp] theorem EntityField.entity_rename (f : EntityField) : (f.rename ρ).entity = f.entity := rfl

namespace DirectSelections

theorem field?_rename (d : DirectSelections) (key : Name) :
    (d.rename ρ).field? key = (d.field? key).map (Field.rename ρ) := by
  rw [field?, field?, fields_rename, List.find?_map]
  congr 2
  funext f
  exact congrArg (· == key) f.responseKey_rename

theorem addSpread_rename (d : DirectSelections) (s : NamedSpread) :
    (d.rename ρ).addSpread (s.rename ρ) = (d.addSpread s).rename ρ := by
  obtain ⟨fields, inlines, spreads⟩ := d
  simp only [addSpread, rename_mk]
  congr 1
  refine Ordered.map_upsert ?_ ?_ spreads
  · exact fun _ => rfl
  · exact fun _ => rfl

theorem putField_rename (d : DirectSelections) (f : Field) :
    (d.rename ρ).putField (f.rename ρ) = (d.putField f).rename ρ := by
  obtain ⟨fields, inlines, spreads⟩ := d
  simp only [putField, rename_mk]
  congr 1
  refine Ordered.map_upsert ?_ ?_ fields
  · intro g
    rw [Field.responseKey_rename, Field.responseKey_rename]
  · exact fun _ => rfl

theorem putInline_rename (d : DirectSelections) (s : InlineSpread) :
    (d.rename ρ).putInline (s.rename ρ) = (d.putInline s).rename ρ := by
  obtain ⟨fields, inlines, spreads⟩ := d
  simp only [putInline, rename_mk]
  congr 1
  refine Ordered.map_upsert ?_ ?_ inlines
  · exact fun _ => rfl
  · exact fun _ => rfl

theorem addScalar_rename (d : DirectSelections) (f : ScalarField) :
    (d.rename ρ).addScalar f = (d.addScalar f).map (rename ρ) := by
  rw [addScalar, addScalar, field?_rename]
  rcases d.field? f.responseKey with _ | held | held
  · exact congrArg Except.ok (d.putField_rename (.scalar f))
  · exact congrArg Except.ok (d.putField_rename (.scalar _))
  · rfl

theorem foldl_addSpread_rename (spreads : List NamedSpread) (d : DirectSelections) :
    (spreads.map (NamedSpread.rename ρ)).foldl addSpread (d.rename ρ)
      = (spreads.foldl addSpread d).rename ρ := by
  induction spreads generalizing d with
  | nil => rfl
  | cons s rest ih => rw [List.map_cons, List.foldl_cons, List.foldl_cons, addSpread_rename, ih]

mutual

theorem merge_rename : ∀ added d : DirectSelections,
    (d.rename ρ).merge (added.rename ρ) = (d.merge added).map (rename ρ)
  | ⟨fields, inlines, spreads⟩, d => by
      rw [rename, merge, merge, mergeFields_rename fields d]
      cases d.mergeFields fields with
      | error e => rfl
      | ok d₁ =>
          change (do let withInlines ← (d₁.rename ρ).mergeInlines (renameInlines ρ inlines)
                     pure (((spreads.map (NamedSpread.rename ρ)).foldl addSpread withInlines)))
            = Except.map _ (do let withInlines ← d₁.mergeInlines inlines
                               pure (spreads.foldl addSpread withInlines))
          rw [mergeInlines_rename inlines d₁]
          cases d₁.mergeInlines inlines with
          | error e => rfl
          | ok d₂ => exact congrArg Except.ok (foldl_addSpread_rename spreads d₂)

theorem mergeFields_rename : ∀ (fields : List Field) (d : DirectSelections),
    (d.rename ρ).mergeFields (renameFields ρ fields) = (d.mergeFields fields).map (rename ρ)
  | [], d => by
      rw [renameFields, mergeFields, mergeFields]
      rfl
  | .scalar f :: rest, d => by
      rw [renameFields, mergeFields, mergeFields, addScalar_rename]
      cases d.addScalar f with
      | error e => rfl
      | ok d₁ => exact mergeFields_rename rest d₁
  | .entity ⟨id, responseKey, type, node, inclusion, ⟨typeInfo, direct⟩⟩ :: rest, d => by
      rw [renameFields, mergeFields, mergeFields, field?_rename]
      rcases d.field? responseKey with _ | held | held
      · have put := putField_rename (ρ := ρ) d
          (.entity ⟨id, responseKey, type, node, inclusion, ⟨typeInfo, direct⟩⟩)
        exact (congrArg (mergeFields · (renameFields ρ rest)) put).trans (mergeFields_rename rest _)
      · rfl
      · dsimp only [Option.map, Field.rename]
        rw [EntityField.entity_rename]
        by_cases same : (held.entity == typeInfo.entity) = true
        · rw [if_pos same, if_pos same]
          rw [show (held.rename ρ).selectionSet.direct = held.selectionSet.direct.rename ρ from rfl,
            merge_rename direct held.selectionSet.direct]
          cases held.selectionSet.direct.merge direct with
          | error e => rfl
          | ok below =>
              have put := putField_rename (ρ := ρ) d (.entity { held with
                inclusion := held.inclusion.merge inclusion,
                selectionSet := { held.selectionSet with direct := below } })
              exact (congrArg (mergeFields · (renameFields ρ rest)) put).trans
                (mergeFields_rename rest _)
        · rw [if_neg same, if_neg same]
          rfl

theorem mergeInlines_rename : ∀ (inlines : List InlineSpread) (d : DirectSelections),
    (d.rename ρ).mergeInlines (renameInlines ρ inlines) = (d.mergeInlines inlines).map (rename ρ)
  | [], d => by
      rw [renameInlines, mergeInlines, mergeInlines]
      rfl
  | ⟨⟨typeInfo, direct⟩, deferral⟩ :: rest, d => by
      rw [renameInlines, mergeInlines, mergeInlines, inlineFragments_rename, List.find?_map]
      change (match (d.inlineFragments.find? fun s =>
        s.key == (InlineSpread.mk ⟨typeInfo, direct⟩ deferral).key).map (InlineSpread.rename ρ) with
          | none => _ | some held => _) = _
      dsimp only
      cases d.inlineFragments.find? fun s =>
          s.key == (InlineSpread.mk ⟨typeInfo, direct⟩ deferral).key with
      | none =>
          have put := putInline_rename (ρ := ρ) d ⟨⟨typeInfo, direct⟩, deferral⟩
          exact (congrArg (mergeInlines · (renameInlines ρ rest)) put).trans
            (mergeInlines_rename rest _)
      | some held =>
          dsimp only [Option.map]
          rw [show (held.rename ρ).selectionSet.direct = held.selectionSet.direct.rename ρ from rfl,
            merge_rename direct held.selectionSet.direct]
          cases held.selectionSet.direct.merge direct with
          | error e => rfl
          | ok below =>
              have put := putInline_rename (ρ := ρ) d
                { held with selectionSet := { held.selectionSet with direct := below } }
              exact (congrArg (mergeInlines · (renameInlines ρ rest)) put).trans
                (mergeInlines_rename rest _)

end

theorem addField_rename (d : DirectSelections) (f : Field) :
    (d.rename ρ).addField (f.rename ρ) = (d.addField f).map (rename ρ) := by
  have added := mergeFields_rename (ρ := ρ) [f] d
  rw [renameFields_eq] at added
  exact added

theorem addInline_rename (d : DirectSelections) (s : InlineSpread) :
    (d.rename ρ).addInline (s.rename ρ) = (d.addInline s).map (rename ρ) := by
  have added := mergeInlines_rename (ρ := ρ) [s] d
  rw [renameInlines_eq] at added
  exact added

end DirectSelections

namespace Walk

theorem addSpread_rename (info : TypeInfo) (direct : DirectSelections) (s : NamedSpread) :
    addSpread info (direct.rename ρ) (s.rename ρ)
      = (addSpread info direct s).map (DirectSelections.rename ρ) := by
  have scope : spreadScope? info (s.rename ρ).fragment.typeCondition
      = spreadScope? info s.fragment.typeCondition := rfl
  rw [addSpread, addSpread, scope]
  cases spreadScope? info s.fragment.typeCondition with
  | none => exact congrArg Except.ok (direct.addSpread_rename s)
  | some scope =>
      have alone := DirectSelections.addSpread_rename (ρ := ρ) .empty s
      rw [DirectSelections.rename_empty] at alone
      have added := DirectSelections.addInline_rename (ρ := ρ) direct
        ⟨⟨s.typeInfo, DirectSelections.empty.addSpread s⟩, .immediate⟩
      rw [InlineSpread.rename, SelectionSet.rename, ← alone] at added
      exact added

end Walk

end Direct

end SelectionGraph
