import SelectionGraph.Proofs.Session.Rename
import SelectionGraph.Proofs.Session.Walked

/-!
# Follows — walks that differ in how they have fragments

Two walks of the same selections have their fragments in different ways, and their definitions have
different identities.  If the fragments that the first has are, renamed, those that the second has,
then so is what they come to.

* `Answers`                — one result is the other, renamed;
* `Walk.Follows`           — a step of one walk answers as the step of another does;
* `Walk.follows_modifyTree` and so on — the steps that do not ask for fragments;
* `Walk.follows_all`       — whole walks, if the look-ups do.

A fragment is had while further ones are built.  What can be said of it depends on the progress at
the end: `Fits` holds at the end, and then also before.
-/

namespace SelectionGraph

variable {α β : Type}

/-- A result is that of a first step, renamed.  For errors this may be asked or not. -/
def Answers (strict : Prop) (f : α → β) : Except BuildError α → Except BuildError β → Prop
  | .ok a, r => r = .ok (f a)
  | .error e, r => strict → r = .error e

theorem Answers.map {α' β' : Type} {strict : Prop} {f : α → α'} {g : β → β'} {a : α → β}
    {b : α' → β'} {r : Except BuildError α} {r' : Except BuildError α'} (h : Answers strict f r r')
    (same : ∀ x, b (f x) = g (a x)) : Answers strict g (r.map a) (r'.map b) := by
  cases r with
  | error e =>
      intro isStrict
      rw [h isStrict]
      rfl
  | ok x =>
      rw [show r' = .ok (f x) from h]
      exact congrArg Except.ok (same x)

namespace Walk

variable {Ready Fits : Progress → Prop} {strict : Prop} {ρ : DefinitionId → DefinitionId}

/-- What steps do to progress: it stays ready, and fits only if it did so before. -/
def Steady (Ready Fits : Progress → Prop) (p p' : Progress) : Prop :=
  (Ready p → Ready p') ∧ (Fits p' → Fits p)

theorem steady_order : Progress.Order (Steady Ready Fits) where
  refl _ := ⟨id, id⟩
  trans h₁ h₂ := ⟨h₂.1 ∘ h₁.1, h₁.2 ∘ h₂.2⟩

/-- A step answers at progress that is ready, if it fits afterwards, as another step does at a draft
that is renamed. -/
structure Follows (Ready Fits : Progress → Prop) (strict : Prop) (ρ : DefinitionId → DefinitionId)
    (f : α → β) (w : Walk α) (w' : Walk β) : Prop where
  keeps : w.Keeps (Steady Ready Fits)
  answers : ∀ d p q, Ready p → Fits (w.result d p).2 →
    Answers strict (Prod.map f (Draft.rename ρ)) (w.result d p).1 (w'.result (d.rename ρ) q).1

namespace Follows

/-- Steps one after the other. -/
theorem bind {α' β' : Type} {f : α → α'} {g : β → β'} {w : Walk α} {w' : Walk α'}
    {k : α → Walk β} {k' : α' → Walk β'} (first : Follows Ready Fits strict ρ f w w')
    (then_ : ∀ a, Follows Ready Fits strict ρ g (k a) (k' (f a))) :
    Follows Ready Fits strict ρ g (w >>= k) (w' >>= k') where
  keeps := .bind steady_order first.keeps fun a => (then_ a).keeps
  answers := by
    intro d p q ready fits
    have steady := first.keeps d p
    have before := first.answers d p q ready
    rw [result_bind] at fits ⊢
    rw [result_bind]
    generalize w.result d p = r at steady before fits ⊢
    generalize w'.result (d.rename ρ) q = r' at before ⊢
    rcases r with ⟨e | ⟨a, d₁⟩, p₁⟩
    · intro isStrict
      have failed := before fits isStrict
      rcases r' with ⟨r', q₁⟩
      cases failed
      rfl
    · have later := (then_ a).keeps d₁ p₁
      have gives := before (later.2 fits)
      rcases r' with ⟨r', q₁⟩
      cases gives
      exact (then_ a).answers d₁ p₁ q₁ (steady.1 ready) fits

/-- A step that leaves progress as it is. -/
theorem of_same {f : α → β} {w : Walk α} {w' : Walk β}
    (same : ∀ d p q, (w.result d p).2 = p
      ∧ (w'.result (d.rename ρ) q).1 = (w.result d p).1.map (Prod.map f (Draft.rename ρ))) :
    Follows Ready Fits strict ρ f w w' where
  keeps d p := (same d p p).1.symm ▸ steady_order.refl p
  answers := by
    intro d p q _ _
    rw [(same d p q).2]
    rcases (w.result d p).1 with e | a
    · exact fun _ => rfl
    · rfl

end Follows

/-! ## Steps that do not ask for fragments -/

theorem follows_pure (f : α → β) (a : α) : Follows Ready Fits strict ρ f (pure a) (pure (f a)) :=
  .of_same fun _ _ _ => ⟨rfl, rfl⟩

theorem follows_ofExcept (f : α → β) (r : Except BuildError α) :
    Follows Ready Fits strict ρ f (ofExcept r) (ofExcept (r.map f)) := by
  refine .of_same fun d p q => ?_
  cases r <;> exact ⟨rfl, rfl⟩

/-- A result in which there are no identities. -/
theorem follows_plain (r : Except BuildError α) :
    Follows Ready Fits strict ρ (fun a => a) (ofExcept r) (ofExcept r) := by
  refine .of_same fun d p q => ?_
  cases r <;> exact ⟨rfl, rfl⟩

theorem follows_get : Follows Ready Fits strict ρ (Draft.rename ρ) (getThe Draft) (getThe Draft) :=
  .of_same fun _ _ _ => ⟨rfl, rfl⟩

theorem follows_set {d d' : Draft} (same : d' = d.rename ρ) :
    Follows Ready Fits strict ρ (fun u => u) (set d : Walk PUnit) (set d' : Walk PUnit) :=
  .of_same fun _ _ _ => ⟨rfl, same ▸ rfl⟩

theorem follows_modify {g g' : Draft → Draft} (same : ∀ d, g' (d.rename ρ) = (g d).rename ρ) :
    Follows Ready Fits strict ρ (fun u => u) (modifyThe Draft g : Walk PUnit)
      (modifyThe Draft g' : Walk PUnit) := by
  refine .of_same fun d p q => ⟨rfl, ?_⟩
  change (Except.ok (PUnit.unit, g' (d.rename ρ)) : Except BuildError _) = _
  rw [same]
  rfl

theorem follows_noteDeferred (isDeferred : Bool) :
    Follows Ready Fits strict ρ (fun u => u) (noteDeferred isDeferred) (noteDeferred isDeferred) :=
  follows_modify fun _ => rfl

theorem follows_freshField :
    Follows Ready Fits strict ρ (FieldId.rename ρ) freshField freshField := by
  refine .bind follows_get fun d => .bind (follows_set rfl) fun _ => ?_
  exact follows_pure (FieldId.rename ρ) ⟨d.entities.source.id, d.nextField⟩

theorem follows_modifyTree (id : EntityId) (change : SelectionTree → SelectionTree) :
    Follows Ready Fits strict ρ (fun u => u) (modifyTree id change) (modifyTree id change) := by
  refine .bind follows_get fun d => ?_
  have found : (d.rename ρ).entities.require id .toSelectOn
      = (d.entities.require id .toSelectOn).map (Entity.rename ρ) :=
    EntityStorage.require_rename d.entities id .toSelectOn
  rw [found]
  refine .bind (follows_ofExcept (Entity.rename ρ) _) fun _ => follows_set ?_
  have changed : (d.rename ρ).entities.modifyTree id change
      = (d.entities.modifyTree id change).rename ρ := EntityStorage.modifyTree_rename d.entities id change
  rw [changed]
  rfl

theorem follows_recordReference (fragment : NamedFragment) :
    Follows Ready Fits strict ρ (fun u => u) (recordReference fragment)
      (recordReference (fragment.rename ρ)) := by
  refine follows_modify fun d => ?_
  have named : ∀ f : NamedFragment, (f.rename ρ).name = f.name := fun _ => rfl
  have added := foldl_addReference_map named (fragment :: fragment.built.referenced) d.referenced
  rw [NamedFragment.rename, BuiltSelections.referenced_rename]
  exact congrArg (fun referenced => { d.rename ρ with referenced }) added

theorem follows_addField (direct : DirectSelections) (f : Field) :
    Follows Ready Fits strict ρ (DirectSelections.rename ρ) (ofExcept (direct.addField f))
      (ofExcept ((direct.rename ρ).addField (f.rename ρ))) := by
  rw [DirectSelections.addField_rename]
  exact follows_ofExcept _ _

theorem follows_addInline (direct : DirectSelections) (s : InlineSpread) :
    Follows Ready Fits strict ρ (DirectSelections.rename ρ) (ofExcept (direct.addInline s))
      (ofExcept ((direct.rename ρ).addInline (s.rename ρ))) := by
  rw [DirectSelections.addInline_rename]
  exact follows_ofExcept _ _

theorem follows_addSpread (info : TypeInfo) (direct : DirectSelections) (s : NamedSpread) :
    Follows Ready Fits strict ρ (DirectSelections.rename ρ) (ofExcept (addSpread info direct s))
      (ofExcept (addSpread info (direct.rename ρ) (s.rename ρ))) := by
  rw [addSpread_rename]
  exact follows_ofExcept _ _

section Injective

variable (inj : Function.Injective ρ)

include inj

theorem follows_entityForField (enclosing : EntityId) (c : PathComponent) :
    Follows Ready Fits strict ρ (fun u => u) (entityForField enclosing c)
      (entityForField enclosing c) := by
  refine .bind follows_get fun d => ?_
  have selected : (d.rename ρ).entities.entityForField enclosing c
      = (d.entities.entityForField enclosing c).map fun r => (r.1, r.2.rename ρ) :=
    EntityStorage.entityForField_rename inj d.entities enclosing c
  rw [selected]
  refine .bind (follows_ofExcept _ _) fun r => ?_
  exact .bind (follows_set rfl) fun _ => follows_pure (fun u => u) r.1

theorem follows_mergeFragmentEntities (site : TypeInfo) (guard : Inclusion) (fragment : NamedFragment) :
    Follows Ready Fits strict ρ (fun u => u) (mergeFragmentEntities site guard fragment)
      (mergeFragmentEntities site guard (fragment.rename ρ)) := by
  refine .bind follows_get fun d => ?_
  have merged : (d.rename ρ).entities.mergeFragmentEntities site.entity site.scopePath guard
      (fragment.rename ρ).built.entities = (d.entities.mergeFragmentEntities site.entity
        site.scopePath guard fragment.built.entities).map (EntityStorage.rename ρ) := by
    rw [NamedFragment.rename, BuiltSelections.entities_rename]
    exact EntityStorage.mergeFragmentEntities_rename inj _ _ _ _ _
  rw [merged]
  exact .bind (follows_ofExcept _ _) fun entities => follows_set rfl

end Injective

/-! ## Walks -/

/-- Two ways to have fragments, where different identities stay different: the fragments that one
has are, renamed, those that the other has. -/
structure LookUpsFollow (Ready Fits : Progress → Prop) (strict : Prop)
    (ρ : DefinitionId → DefinitionId) (lookUp lookUp' : Name → Build NamedFragment) : Prop where
  injective : Function.Injective ρ
  fragments : ∀ name, Follows Ready Fits strict ρ (NamedFragment.rename ρ) (ofBuild (lookUp name))
    (ofBuild (lookUp' name))
  collects : ∀ parent field type, Follows Ready Fits strict ρ (fun u => u)
    (ofBuild (Build.collect parent field type)) (ofBuild (Build.collect parent field type))

section Walks

variable {view : SchemaView} {lookUp lookUp' : Name → Build NamedFragment}

theorem follows_spread (lookUps : LookUpsFollow Ready Fits strict ρ lookUp lookUp')
    (info : TypeInfo) (direct : DirectSelections) (name : Name) (directives : List Directive) :
    Follows Ready Fits strict ρ (DirectSelections.rename ρ)
      (spread view lookUp info direct name directives)
      (spread view lookUp' info (direct.rename ρ) name directives) := by
  refine .bind (follows_plain _) ?_
  rintro (_ | inclusion)
  · exact follows_pure (DirectSelections.rename ρ) direct
  · refine .bind (follows_plain _) fun deferral => ?_
    refine .bind (lookUps.fragments name) fun fragment => ?_
    refine .bind (follows_recordReference fragment) fun _ => ?_
    rw [show (fragment.rename ρ).built.containsDeferred = fragment.built.containsDeferred from
      fragment.built.containsDeferred_rename ρ]
    refine .bind (follows_noteDeferred _) fun _ => ?_
    refine .bind (follows_mergeFragmentEntities lookUps.injective _ _ fragment) fun _ => ?_
    refine .bind (follows_modifyTree _ _) fun _ => ?_
    rw [NamedFragment.handle_rename]
    exact follows_addSpread info direct ⟨fragment.handle, _, inclusion, deferral⟩

mutual

theorem follows_one (lookUps : LookUpsFollow Ready Fits strict ρ lookUp lookUp')
    (info : TypeInfo) (direct : DirectSelections) : ∀ s : Selection,
    Follows Ready Fits strict ρ (DirectSelections.rename ρ) (one view lookUp info direct s)
      (one view lookUp' info (direct.rename ρ) s)
  | .field ⟨label, definition, arguments, directives, selections⟩ => by
      rw [one, one]
      refine .bind (follows_plain _) ?_
      rintro (_ | inclusion)
      · exact follows_pure (DirectSelections.rename ρ) direct
      · refine .bind (lookUps.collects _ _ _) fun _ => ?_
        refine .bind (follows_modifyTree _ _) fun _ => ?_
        refine .bind (follows_plain _) ?_
        rintro (_ | _)
        · exact follows_addField direct (.scalar ⟨_, inclusion⟩)
        · refine .bind (follows_entityForField lookUps.injective _ _) fun entity => ?_
          have inner := fun info => follows_all lookUps info .empty selections
          rw [DirectSelections.rename_empty] at inner
          refine .bind (inner _) fun below => ?_
          refine .bind follows_freshField fun id => ?_
          exact follows_addField direct (.entity ⟨id, _, _, some _, inclusion, ⟨_, below⟩⟩)
  | .inlineFragment condition directives selections => by
      rw [one, one]
      refine .bind (follows_plain _) fun verdict => ?_
      cases verdict.scope? with
      | none => exact follows_pure (DirectSelections.rename ρ) direct
      | some conditions =>
          refine .bind (follows_plain _) fun deferral => ?_
          refine .bind (follows_noteDeferred _) fun _ => ?_
          dsimp only
          split
          · exact follows_all lookUps info direct selections
          · have inner := fun info => follows_all lookUps info .empty selections
            rw [DirectSelections.rename_empty] at inner
            refine .bind (inner _) fun below => ?_
            exact follows_addInline direct ⟨⟨_, below⟩, deferral⟩
  | .fragmentSpread name directives => by
      rw [one, one]
      exact follows_spread lookUps info direct name directives

/-- Walks whose look-ups follow one another do so themselves. -/
theorem follows_all (lookUps : LookUpsFollow Ready Fits strict ρ lookUp lookUp')
    (info : TypeInfo) (direct : DirectSelections) : ∀ ss : List Selection,
    Follows Ready Fits strict ρ (DirectSelections.rename ρ) (all view lookUp info direct ss)
      (all view lookUp' info (direct.rename ρ) ss)
  | [] => by
      rw [all, all]
      exact follows_pure (DirectSelections.rename ρ) direct
  | s :: ss => by
      rw [all, all]
      refine .bind (follows_one lookUps info direct s) fun direct₁ => ?_
      exact follows_all lookUps info direct₁ ss

end

end Walks

end Walk
end SelectionGraph
