import SelectionGraph.Proofs.Inclusion.Algebra
import SelectionGraph.Proofs.Session.Steps

/-!
# Walked — what a successful walk has done

A walk is a program that threads a draft and the progress of a session.  `Walked` says what it has
done when it succeeds, one rule for each way to treat a selection, with the fragments taken from the
list of those that were built:

* `Walked view built info direct draft ss direct' draft'` — walking `ss` at `info` turns the direct
  selections `direct` and the draft `draft` into `direct'` and `draft'`;
* `Walked.mono`     — further fragments do not matter;
* `Walk.walked_all` — a walk that succeeds has walked.

Everything about built definitions is proved by induction on this relation; nothing else opens the
walk.
-/

namespace SelectionGraph

/-- The fragment of a name among those that are built. -/
def NamedFragment.find? (built : List NamedFragment) (name : Name) : Option NamedFragment :=
  List.find? (fun f => f.name == name) built

/-- A fragment is found among more fragments as it is among the first of them. -/
theorem NamedFragment.find?_mono {built built' : List NamedFragment} (more : built <+: built')
    {name : Name} {f : NamedFragment} (found : find? built name = some f) :
    find? built' name = some f := by
  obtain ⟨further, rfl⟩ := more
  rw [find?, List.find?_append]
  exact Option.or_eq_some_iff.mpr (Or.inl found)

/-! ## Changes of a draft -/

namespace Draft

/-- A field is selected at a place. -/
def insertField (draft : Draft) (info : TypeInfo) (f : FieldSelection) (inclusion : Inclusion) :
    Draft :=
  { draft with entities := draft.entities.modifyTree info.entity fun t =>
      t.insertField info.scopePath ⟨f.responseKey, f.name, f.type, inclusion⟩ }

/-- A fragment is spread, deferred or not. -/
def reference (draft : Draft) (f : NamedFragment) (deferral : Deferral) : Draft :=
  { draft with
    referenced := (f :: f.built.referenced).foldl Walk.addReference draft.referenced
    containsDeferred :=
      draft.containsDeferred || (deferral.isDeferred || f.built.containsDeferred) }

/-- An inline fragment is entered, deferred or not. -/
def noteDeferred (draft : Draft) (deferral : Deferral) : Draft :=
  { draft with containsDeferred := draft.containsDeferred || deferral.isDeferred }

/-- The identity of the next field. -/
def nextId (draft : Draft) : FieldId :=
  ⟨draft.entities.source.id, draft.nextField⟩

end Draft

/-- The place of the selections inside an inline fragment. -/
def TypeInfo.inside (info : TypeInfo) (view : SchemaView) (condition : Option Name)
    (conditions : Option Conjunction) : TypeInfo :=
  let type := condition.getD info.parentType
  info.enter ⟨type, conditions⟩ (view.isRootFieldType type)

/-- An inline fragment that adds neither type, condition nor deferral to its set. -/
def TypeInfo.flattens (info : TypeInfo) (condition : Option Name)
    (conditions : Option Conjunction) (deferral : Deferral) : Bool :=
  condition.getD info.parentType == info.parentType && conditions.isNone && !deferral.isDeferred

/-- The place of the selections inside a field. -/
def FieldSelection.inside (f : FieldSelection) (view : SchemaView) (entity : EntityId) : TypeInfo :=
  ⟨entity, f.type.innerName, .root, view.isRootFieldType f.type.innerName⟩

/-- A field of composite type as built. -/
def FieldSelection.build (f : FieldSelection) (id : FieldId) (inclusion : Inclusion)
    (set : SelectionSet) : Field :=
  .entity ⟨id, f.responseKey, f.type, some f, inclusion, set⟩

/-! ## The relation -/

inductive Walked (view : SchemaView) (built : List NamedFragment) :
    TypeInfo → DirectSelections → Draft → List Selection → DirectSelections → Draft → Prop
  | nil {info : TypeInfo} {direct : DirectSelections} {draft : Draft} :
      Walked view built info direct draft [] direct draft
  | skipped {info : TypeInfo} {direct direct' : DirectSelections} {draft draft' : Draft}
      {s : Selection} {ss : List Selection}
      (skips : Inclusion.ofDirectives s.directives = .ok none)
      (rest : Walked view built info direct draft ss direct' draft') :
      Walked view built info direct draft (s :: ss) direct' draft'
  | leaf {info : TypeInfo} {direct direct₁ direct' : DirectSelections} {draft draft' : Draft}
      {f : FieldSelection} {ss : List Selection} {inclusion : Inclusion}
      (included : Inclusion.ofDirectives f.directives = .ok (some inclusion))
      (isLeaf : view.isComposite f.type.innerName = .ok false)
      (added : direct.addField (.scalar ⟨f, inclusion⟩) = .ok direct₁)
      (rest : Walked view built info direct₁ (draft.insertField info f inclusion) ss direct' draft') :
      Walked view built info direct draft (.field f :: ss) direct' draft'
  | entity {info : TypeInfo} {direct below direct₁ direct' : DirectSelections}
      {draft draft₁ draft' : Draft} {entities : EntityStorage} {entity : EntityId}
      {f : FieldSelection} {ss : List Selection} {inclusion : Inclusion}
      (included : Inclusion.ofDirectives f.directives = .ok (some inclusion))
      (isComposite : view.isComposite f.type.innerName = .ok true)
      (selected : (draft.insertField info f inclusion).entities.entityForField info.entity
        ⟨f.responseKey, f.type⟩ = .ok (entity, entities))
      (inner : Walked view built (f.inside view entity) .empty
        { draft.insertField info f inclusion with entities } f.selections below draft₁)
      (added : direct.addField (f.build draft₁.nextId inclusion ⟨f.inside view entity, below⟩)
        = .ok direct₁)
      (rest : Walked view built info direct₁ { draft₁ with nextField := draft₁.nextField + 1 } ss
        direct' draft') :
      Walked view built info direct draft (.field f :: ss) direct' draft'
  | flat {info : TypeInfo} {direct direct₁ direct' : DirectSelections} {draft draft₁ draft' : Draft}
      {condition : Option Name} {directives : List Directive} {inner ss : List Selection}
      {verdict : Verdict} {conditions : Option Conjunction} {deferral : Deferral}
      (read : Verdict.ofDirectives directives = .ok verdict)
      (scope : verdict.scope? = some conditions)
      (deferred : Deferral.ofDirectives directives = .ok deferral)
      (flattens : info.flattens condition conditions deferral = true)
      (inside : Walked view built info direct (draft.noteDeferred deferral) inner direct₁ draft₁)
      (rest : Walked view built info direct₁ draft₁ ss direct' draft') :
      Walked view built info direct draft (.inlineFragment condition directives inner :: ss)
        direct' draft'
  | inline {info : TypeInfo} {direct below direct₁ direct' : DirectSelections}
      {draft draft₁ draft' : Draft} {condition : Option Name} {directives : List Directive}
      {inner ss : List Selection} {verdict : Verdict} {conditions : Option Conjunction}
      {deferral : Deferral} (read : Verdict.ofDirectives directives = .ok verdict)
      (scope : verdict.scope? = some conditions)
      (deferred : Deferral.ofDirectives directives = .ok deferral)
      (opens : info.flattens condition conditions deferral = false)
      (inside : Walked view built (info.inside view condition conditions) .empty
        (draft.noteDeferred deferral) inner below draft₁)
      (added : direct.addInline ⟨⟨info.inside view condition conditions, below⟩, deferral⟩
        = .ok direct₁)
      (rest : Walked view built info direct₁ draft₁ ss direct' draft') :
      Walked view built info direct draft (.inlineFragment condition directives inner :: ss)
        direct' draft'
  | spread {info : TypeInfo} {direct direct₁ direct' : DirectSelections} {draft draft' : Draft}
      {entities : EntityStorage} {name : Name} {directives : List Directive} {ss : List Selection}
      {inclusion : Inclusion} {deferral : Deferral} {fragment : NamedFragment}
      (included : Inclusion.ofDirectives directives = .ok (some inclusion))
      (deferred : Deferral.ofDirectives directives = .ok deferral)
      (found : NamedFragment.find? built name = some fragment)
      (merged : draft.entities.mergeFragmentEntities
        (Walk.spreadSite view info fragment.definition.typeCondition).entity
        (Walk.spreadSite view info fragment.definition.typeCondition).scopePath inclusion
        fragment.built.entities = .ok entities)
      (added : Walk.addSpread info direct ⟨fragment.handle,
        Walk.spreadSite view info fragment.definition.typeCondition, inclusion, deferral⟩
        = .ok direct₁)
      (rest : Walked view built info direct₁
        { draft.reference fragment deferral with
          entities := entities.modifyTree info.entity fun t =>
            t.insertFragment info.scopePath fragment.name inclusion } ss direct' draft') :
      Walked view built info direct draft (.fragmentSpread name directives :: ss) direct' draft'

namespace Walked

variable {view : SchemaView} {built built' : List NamedFragment} {info : TypeInfo}
  {direct direct₁ direct' : DirectSelections} {draft draft₁ draft' : Draft} {ss ts : List Selection}

theorem mono (more : built <+: built') (h : Walked view built info direct draft ss direct' draft') :
    Walked view built' info direct draft ss direct' draft' := by
  induction h with
  | nil => exact nil
  | skipped skips _ ih => exact skipped skips ih
  | leaf included isLeaf added _ ih => exact leaf included isLeaf added ih
  | entity included isComposite selected _ added _ ihInner ih =>
      exact entity included isComposite selected ihInner added ih
  | flat read scope deferred flattens _ _ ihInside ih =>
      exact flat read scope deferred flattens ihInside ih
  | inline read scope deferred opens _ added _ ihInside ih =>
      exact inline read scope deferred opens ihInside added ih
  | spread included deferred found merged added _ ih =>
      exact spread included deferred (NamedFragment.find?_mono more found) merged added ih

/-- One list of selections after another. -/
theorem append (first : Walked view built info direct draft ss direct₁ draft₁)
    (second : Walked view built info direct₁ draft₁ ts direct' draft') :
    Walked view built info direct draft (ss ++ ts) direct' draft' := by
  induction first with
  | nil => exact second
  | skipped skips _ ih => exact skipped skips (ih second)
  | leaf included isLeaf added _ ih => exact leaf included isLeaf added (ih second)
  | entity included isComposite selected inner added _ _ ih =>
      exact entity included isComposite selected inner added (ih second)
  | flat read scope deferred flattens inside _ _ ih =>
      exact flat read scope deferred flattens inside (ih second)
  | inline read scope deferred opens inside added _ _ ih =>
      exact inline read scope deferred opens inside added (ih second)
  | spread included deferred found merged added _ ih =>
      exact spread included deferred found merged added (ih second)

end Walked

/-! ## A walk that succeeds has walked -/

namespace Walk

variable {view : SchemaView} {fragmentNamed : Name → Build NamedFragment}

/-- A look-up of fragments keeps those that were built, and finds one of them. -/
structure LookUp (fragmentNamed : Name → Build NamedFragment) : Prop where
  keeps : ∀ name, (fragmentNamed name).Keeps fun p p' => p.fragments <+: p'.fragments
  finds : ∀ name p f p', (fragmentNamed name).Gives p f p' →
    NamedFragment.find? p'.fragments name = some f

theorem prefixOrder : Progress.Order fun p p' => p.fragments <+: p'.fragments :=
  ⟨fun _ => List.prefix_refl _, List.IsPrefix.trans⟩

theorem keeps_collect (parent field : Name) (type : TypeRef) :
    (Build.collect parent field type).Keeps fun p p' => p.fragments <+: p'.fragments :=
  fun _ => List.prefix_refl _

theorem keeps_fragments (lookUp : LookUp fragmentNamed) (info : TypeInfo) (direct : DirectSelections)
    (ss : List Selection) :
    (all view fragmentNamed info direct ss).Keeps fun p p' => p.fragments <+: p'.fragments :=
  keeps_all prefixOrder lookUp.keeps info direct ss fun _ _ _ => keeps_collect _ _ _

theorem Gives.kept {α : Type} {R : Progress → Progress → Prop} {w : Walk α} (keeps : w.Keeps R)
    {d d' : Draft} {p p' : Progress} {a : α} (h : w.Gives d p a d' p') : R p p' := by
  have := keeps d p
  rw [h] at this
  exact this

mutual

theorem walked_one (lookUp : LookUp fragmentNamed) (info : TypeInfo) (direct : DirectSelections) :
    ∀ (s : Selection) (draft : Draft) (p : Progress) (direct' : DirectSelections) (draft' : Draft)
      (p' : Progress), (one view fragmentNamed info direct s).Gives draft p direct' draft' p' →
      Walked view p'.fragments info direct draft [s] direct' draft'
  | .field ⟨label, definition, arguments, directives, selections⟩, draft, p, direct', draft', p',
      h => by
      rw [one] at h
      simp only [gives_bind, gives_ofExcept] at h
      obtain ⟨_ | inclusion, d₀, p₀, ⟨included, rfl, rfl⟩, h⟩ := h
      · obtain ⟨rfl, rfl, rfl⟩ := gives_pure.mp h
        exact .skipped included .nil
      · simp only [gives_bind, gives_ofBuild, gives_modifyTree, gives_ofExcept] at h
        obtain ⟨_, d₀, p₁, ⟨collected, rfl⟩, _, d₁, p₂, ⟨-, rfl, rfl⟩, _ | _, d₂, p₃,
          ⟨composite, rfl, rfl⟩, h⟩ := h
        · obtain ⟨added, rfl, rfl⟩ := gives_ofExcept.mp h
          exact .leaf included composite added .nil
        · simp only [if_true, gives_bind, gives_entityForField, gives_freshField,
            gives_ofExcept] at h
          obtain ⟨entity, d₂, p₃, ⟨entities, selected, rfl, rfl⟩, below, d₃, p₄, inner, id, d₄, p₅,
            ⟨rfl, rfl, rfl⟩, added, rfl, rfl⟩ := h
          exact .entity included composite selected
            (walked_all lookUp _ selections _ _ _ _ _ _ inner) added .nil
  | .inlineFragment condition directives selections, draft, p, direct', draft', p', h => by
      rw [one] at h
      simp only [gives_bind, gives_ofExcept] at h
      obtain ⟨verdict, d₀, p₀, ⟨read, rfl, rfl⟩, h⟩ := h
      cases scope : verdict.scope? with
      | none =>
          rw [scope] at h
          obtain ⟨rfl, rfl, rfl⟩ := gives_pure.mp h
          refine .skipped ?_ .nil
          rw [Selection.directives, Inclusion.ofDirectives_of_verdict read, scope]
          rfl
      | some conditions =>
          rw [scope] at h
          simp only [gives_bind, gives_ofExcept, noteDeferred, gives_modify] at h
          obtain ⟨deferral, d₀, p₀, ⟨deferred, rfl, rfl⟩, _, d₁, p₁, ⟨rfl, rfl⟩, h⟩ := h
          split at h
          · rename_i flattens
            exact .flat read scope deferred flattens
              (walked_all lookUp _ selections _ _ _ _ _ _ h) .nil
          · rename_i opens
            simp only [gives_bind, gives_ofExcept] at h
            obtain ⟨below, d₂, p₂, inside, added, rfl, rfl⟩ := h
            exact .inline read scope deferred (Bool.eq_false_iff.mpr opens)
              (walked_all lookUp _ selections _ _ _ _ _ _ inside) added .nil
  | .fragmentSpread name directives, draft, p, direct', draft', p', h => by
      rw [one, spread] at h
      simp only [gives_bind, gives_ofExcept] at h
      obtain ⟨_ | inclusion, d₀, p₀, ⟨included, rfl, rfl⟩, h⟩ := h
      · obtain ⟨rfl, rfl, rfl⟩ := gives_pure.mp h
        exact .skipped included .nil
      · simp only [gives_bind, gives_ofBuild, gives_ofExcept, recordReference, noteDeferred,
          gives_modify, gives_mergeFragmentEntities, gives_modifyTree] at h
        obtain ⟨deferral, d₀, p₀, ⟨deferred, rfl, rfl⟩, fragment, d₁, p₁, ⟨named, rfl⟩, _, d₂, p₂,
          ⟨rfl, rfl⟩, _, d₃, p₃, ⟨rfl, rfl⟩, _, d₄, p₄, ⟨entities, merged, rfl, rfl⟩, _, d₅, p₅,
          ⟨-, rfl, rfl⟩, added, rfl, rfl⟩ := h
        exact .spread included deferred (lookUp.finds _ _ _ _ named) merged added .nil

/-- A walk that succeeds has walked, with the fragments built by its end. -/
theorem walked_all (lookUp : LookUp fragmentNamed) (info : TypeInfo) :
    ∀ (ss : List Selection) (direct : DirectSelections) (draft : Draft) (p : Progress)
      (direct' : DirectSelections) (draft' : Draft) (p' : Progress),
      (all view fragmentNamed info direct ss).Gives draft p direct' draft' p' →
      Walked view p'.fragments info direct draft ss direct' draft'
  | [], direct, draft, p, direct', draft', p', h => by
      rw [all, gives_pure] at h
      obtain ⟨rfl, rfl, rfl⟩ := h
      exact .nil
  | s :: ss, direct, draft, p, direct', draft', p', h => by
      rw [all, gives_bind] at h
      obtain ⟨direct₁, draft₁, p₁, first, second⟩ := h
      -- The first selection was walked with the fragments built by then, which the others keep.
      have more := Gives.kept (keeps_fragments lookUp info direct₁ ss) second
      have one := walked_one lookUp info direct s draft p direct₁ draft₁ p₁ first
      exact (one.mono more).append (walked_all lookUp info ss direct₁ draft₁ p₁ _ _ _ second)

end

end Walk
end SelectionGraph
