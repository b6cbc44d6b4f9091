import SelectionGraph.Proofs.Document.Visited
import SelectionGraph.Proofs.Session.Walked

/-!
# Failed — where a walk has failed, and why

`Walked` says what a successful walk has done.  `Failed` says the same of one that fails: some
selection of the list is the first that cannot be walked, those before it were walked, and one step
of its own gives the error.

* `Walk.Fails`      — a step of a walk fails; `fails_bind` and so on say what that comes to;
* `Failed`          — one rule for each step that can give the error;
* `Walk.failed_all` — a walk that fails has failed.

What the look-up of fragments answers is a parameter: `asked name e` says that it was asked for
`name` and answered `e`.
-/

namespace SelectionGraph

/-! ## Failure of the steps of a walk -/

namespace Walk

variable {α β : Type} {d : Draft} {p p' : Progress} {e : BuildError}

/-- A step of a walk fails. -/
def Fails (w : Walk α) (d : Draft) (p : Progress) (e : BuildError) (p' : Progress) : Prop :=
  w.result d p = (.error e, p')

theorem fails_bind {w : Walk α} {k : α → Walk β} :
    (w >>= k).Fails d p e p'
      ↔ w.Fails d p e p' ∨ ∃ a d' q, w.Gives d p a d' q ∧ (k a).Fails d' q e p' := by
  unfold Fails Gives
  rw [result_bind]
  rcases w.result d p with ⟨e' | ⟨a, d'⟩, q⟩
  · simp
  · constructor
    · exact fun failed => Or.inr ⟨a, d', q, rfl, failed⟩
    · rintro (⟨⟨⟩⟩ | ⟨_, _, _, ⟨⟩, failed⟩)
      exact failed

theorem not_fails_pure {a : α} : ¬ (pure a : Walk α).Fails d p e p' := by
  intro h
  cases (show ((Except.ok (a, d), p) : Except BuildError (α × Draft) × Progress) = (.error e, p')
    from h)

theorem fails_ofExcept {r : Except BuildError α} :
    (ofExcept r).Fails d p e p' ↔ r = .error e ∧ p = p' := by
  cases r with
  | ok a => exact iff_of_false not_fails_pure (by simp)
  | error e' =>
      change ((Except.error e', p) : Except BuildError (α × Draft) × Progress) = (.error e, p') ↔ _
      simp

theorem fails_ofBuild {b : Build α} :
    (ofBuild b).Fails d p e p' ↔ b.result p = (.error e, p') := by
  change Build.result (b >>= fun a => pure (a, d)) p = (.error e, p') ↔ _
  rw [Build.result_bind]
  rcases b.result p with ⟨e' | a, q⟩
  · simp
  · refine iff_of_false ?_ (by simp)
    intro h
    cases (show ((Except.ok (a, d), q) : Except BuildError (α × Draft) × Progress) = (.error e, p')
      from h)

theorem not_fails_modify {f : Draft → Draft} :
    ¬ (modifyThe Draft f : Walk PUnit).Fails d p e p' := by
  intro h
  cases (show ((Except.ok (PUnit.unit, f d), p) : Except BuildError (PUnit × Draft) × Progress)
    = (.error e, p') from h)

theorem not_fails_get : ¬ (getThe Draft : Walk Draft).Fails d p e p' := by
  intro h
  cases (show ((Except.ok (d, d), p) : Except BuildError (Draft × Draft) × Progress)
    = (.error e, p') from h)

theorem not_fails_set {draft : Draft} : ¬ (set draft : Walk PUnit).Fails d p e p' := by
  intro h
  cases (show ((Except.ok (PUnit.unit, draft), p) : Except BuildError (PUnit × Draft) × Progress)
    = (.error e, p') from h)

theorem not_fails_collect {parent field : Name} {type : TypeRef} :
    ¬ (ofBuild (Build.collect parent field type)).Fails d p e p' := by
  rw [fails_ofBuild]
  intro h
  cases h

/-- What is read from the draft and then fails. -/
theorem fails_get_bind {k : Draft → Walk α} :
    (getThe Draft >>= k : Walk α).Fails d p e p' ↔ (k d).Fails d p e p' := by
  simp only [fails_bind, not_fails_get, gives_get, false_or]
  constructor
  · rintro ⟨_, _, _, ⟨rfl, rfl, rfl⟩, failed⟩
    exact failed
  · exact fun failed => ⟨d, d, p, ⟨rfl, rfl, rfl⟩, failed⟩

/-- Only a function that may fail can fail, where what follows it cannot. -/
theorem fails_ofExcept_bind {r : Except BuildError α} {k : α → Walk β}
    (never : ∀ a d' q, ¬ (k a).Fails d' q e p') :
    (ofExcept r >>= k).Fails d p e p' ↔ r = .error e ∧ p = p' := by
  rw [fails_bind, fails_ofExcept]
  refine or_iff_left ?_
  rintro ⟨a, d', q, -, failed⟩
  exact never a d' q failed

theorem fails_modifyTree {id : EntityId} {change : SelectionTree → SelectionTree} :
    (modifyTree id change).Fails d p e p'
      ↔ d.entities.require id .toSelectOn = .error e ∧ p = p' := by
  rw [modifyTree, fails_get_bind]
  exact fails_ofExcept_bind fun _ _ _ => not_fails_set

theorem fails_entityForField {enclosing : EntityId} {component : PathComponent} :
    (entityForField enclosing component).Fails d p e p'
      ↔ d.entities.entityForField enclosing component = .error e ∧ p = p' := by
  rw [entityForField, fails_get_bind]
  refine fails_ofExcept_bind fun found d' q => ?_
  simp only [fails_bind, not_fails_set, false_or]
  rintro ⟨_, _, _, -, failed⟩
  exact not_fails_pure failed

theorem fails_mergeFragmentEntities {site : TypeInfo} {guard : Inclusion}
    {fragment : NamedFragment} :
    (mergeFragmentEntities site guard fragment).Fails d p e p'
      ↔ d.entities.mergeFragmentEntities site.entity site.scopePath guard fragment.built.entities
        = .error e ∧ p = p' := by
  rw [mergeFragmentEntities, fails_get_bind]
  exact fails_ofExcept_bind fun _ _ _ => not_fails_set

theorem not_fails_freshField : ¬ freshField.Fails d p e p' := by
  rw [freshField, fails_get_bind]
  simp only [fails_bind, not_fails_set, false_or]
  rintro ⟨_, _, _, -, failed⟩
  exact not_fails_pure failed

end Walk

/-! ## The relation -/

inductive Failed (view : SchemaView) (built : List NamedFragment)
    (asked : Name → BuildError → Prop) :
    TypeInfo → DirectSelections → Draft → List Selection → BuildError → Prop
  | later {info : TypeInfo} {direct direct₁ : DirectSelections} {draft draft₁ : Draft}
      {s : Selection} {ss : List Selection} {e : BuildError}
      (first : Walked view built info direct draft [s] direct₁ draft₁)
      (rest : Failed view built asked info direct₁ draft₁ ss e) :
      Failed view built asked info direct draft (s :: ss) e
  | unread {info : TypeInfo} {direct : DirectSelections} {draft : Draft} {s : Selection}
      {ss : List Selection} {e : BuildError}
      (fails : Inclusion.ofDirectives s.directives = .error e) :
      Failed view built asked info direct draft (s :: ss) e
  | undeferred {info : TypeInfo} {direct : DirectSelections} {draft : Draft} {s : Selection}
      {ss : List Selection} {e : BuildError} (fragment : s.isFragment = true) (kept : ¬ s.Skipped)
      (fails : Deferral.ofDirectives s.directives = .error e) :
      Failed view built asked info direct draft (s :: ss) e
  | noTree {info : TypeInfo} {direct : DirectSelections} {draft : Draft} {s : Selection}
      {ss : List Selection} {e : BuildError}
      (fails : draft.entities.require info.entity .toSelectOn = .error e) :
      Failed view built asked info direct draft (s :: ss) e
  | noType {info : TypeInfo} {direct : DirectSelections} {draft : Draft} {f : FieldSelection}
      {ss : List Selection} {inclusion : Inclusion} {e : BuildError}
      (included : Inclusion.ofDirectives f.directives = .ok (some inclusion))
      (fails : view.isComposite f.type.innerName = .error e) :
      Failed view built asked info direct draft (.field f :: ss) e
  | leaf {info : TypeInfo} {direct : DirectSelections} {draft : Draft} {f : FieldSelection}
      {ss : List Selection} {inclusion : Inclusion} {e : BuildError}
      (included : Inclusion.ofDirectives f.directives = .ok (some inclusion))
      (isLeaf : view.isComposite f.type.innerName = .ok false)
      (fails : direct.addField (.scalar ⟨f, inclusion⟩) = .error e) :
      Failed view built asked info direct draft (.field f :: ss) e
  | noEntity {info : TypeInfo} {direct : DirectSelections} {draft : Draft} {f : FieldSelection}
      {ss : List Selection} {inclusion : Inclusion} {e : BuildError}
      (fails : (draft.insertField info f inclusion).entities.entityForField info.entity
        ⟨f.responseKey, f.type⟩ = .error e) :
      Failed view built asked info direct draft (.field f :: ss) e
  | inField {info : TypeInfo} {direct : DirectSelections} {draft : Draft}
      {entities : EntityStorage} {entity : EntityId} {f : FieldSelection} {ss : List Selection}
      {inclusion : Inclusion} {e : BuildError}
      (included : Inclusion.ofDirectives f.directives = .ok (some inclusion))
      (isComposite : view.isComposite f.type.innerName = .ok true)
      (selected : (draft.insertField info f inclusion).entities.entityForField info.entity
        ⟨f.responseKey, f.type⟩ = .ok (entity, entities))
      (inner : Failed view built asked (f.inside view entity) .empty
        { draft.insertField info f inclusion with entities } f.selections e) :
      Failed view built asked info direct draft (.field f :: ss) e
  | entity {info : TypeInfo} {direct below : DirectSelections} {draft draft₁ : Draft}
      {entities : EntityStorage} {entity : EntityId} {f : FieldSelection} {ss : List Selection}
      {inclusion : Inclusion} {e : BuildError}
      (included : Inclusion.ofDirectives f.directives = .ok (some inclusion))
      (isComposite : view.isComposite f.type.innerName = .ok true)
      (selected : (draft.insertField info f inclusion).entities.entityForField info.entity
        ⟨f.responseKey, f.type⟩ = .ok (entity, entities))
      (inner : Walked view built (f.inside view entity) .empty
        { draft.insertField info f inclusion with entities } f.selections below draft₁)
      (fails : direct.addField (f.build draft₁.nextId inclusion ⟨f.inside view entity, below⟩)
        = .error e) :
      Failed view built asked info direct draft (.field f :: ss) e
  | inFlat {info : TypeInfo} {direct : DirectSelections} {draft : Draft} {condition : Option Name}
      {directives : List Directive} {inner ss : List Selection} {verdict : Verdict}
      {conditions : Option Conjunction} {deferral : Deferral} {e : BuildError}
      (read : Verdict.ofDirectives directives = .ok verdict)
      (scope : verdict.scope? = some conditions)
      (deferred : Deferral.ofDirectives directives = .ok deferral)
      (flattens : info.flattens condition conditions deferral = true)
      (inside : Failed view built asked info direct (draft.noteDeferred deferral) inner e) :
      Failed view built asked info direct draft (.inlineFragment condition directives inner :: ss) e
  | inInline {info : TypeInfo} {direct : DirectSelections} {draft : Draft}
      {condition : Option Name} {directives : List Directive} {inner ss : List Selection}
      {verdict : Verdict} {conditions : Option Conjunction} {deferral : Deferral} {e : BuildError}
      (read : Verdict.ofDirectives directives = .ok verdict)
      (scope : verdict.scope? = some conditions)
      (deferred : Deferral.ofDirectives directives = .ok deferral)
      (opens : info.flattens condition conditions deferral = false)
      (inside : Failed view built asked (info.inside view condition conditions) .empty
        (draft.noteDeferred deferral) inner e) :
      Failed view built asked info direct draft (.inlineFragment condition directives inner :: ss) e
  | inline {info : TypeInfo} {direct below : DirectSelections} {draft draft₁ : Draft}
      {condition : Option Name} {directives : List Directive} {inner ss : List Selection}
      {verdict : Verdict} {conditions : Option Conjunction} {deferral : Deferral} {e : BuildError}
      (read : Verdict.ofDirectives directives = .ok verdict)
      (scope : verdict.scope? = some conditions)
      (deferred : Deferral.ofDirectives directives = .ok deferral)
      (opens : info.flattens condition conditions deferral = false)
      (inside : Walked view built (info.inside view condition conditions) .empty
        (draft.noteDeferred deferral) inner below draft₁)
      (fails : direct.addInline ⟨⟨info.inside view condition conditions, below⟩, deferral⟩
        = .error e) :
      Failed view built asked info direct draft (.inlineFragment condition directives inner :: ss) e
  | lookUp {info : TypeInfo} {direct : DirectSelections} {draft : Draft} {name : Name}
      {directives : List Directive} {ss : List Selection} {inclusion : Inclusion}
      {e : BuildError} (included : Inclusion.ofDirectives directives = .ok (some inclusion))
      (fails : asked name e) :
      Failed view built asked info direct draft (.fragmentSpread name directives :: ss) e
  | merge {info : TypeInfo} {direct : DirectSelections} {draft : Draft} {name : Name}
      {directives : List Directive} {ss : List Selection} {inclusion : Inclusion}
      {fragment : NamedFragment} {e : BuildError}
      (found : NamedFragment.find? built name = some fragment)
      (fails : draft.entities.mergeFragmentEntities
        (Walk.spreadSite view info fragment.definition.typeCondition).entity
        (Walk.spreadSite view info fragment.definition.typeCondition).scopePath inclusion
        fragment.built.entities = .error e) :
      Failed view built asked info direct draft (.fragmentSpread name directives :: ss) e
  | noTreeMerged {info : TypeInfo} {direct : DirectSelections} {draft : Draft}
      {entities : EntityStorage} {name : Name} {directives : List Directive}
      {ss : List Selection} {inclusion : Inclusion} {fragment : NamedFragment} {e : BuildError}
      (found : NamedFragment.find? built name = some fragment)
      (merged : draft.entities.mergeFragmentEntities
        (Walk.spreadSite view info fragment.definition.typeCondition).entity
        (Walk.spreadSite view info fragment.definition.typeCondition).scopePath inclusion
        fragment.built.entities = .ok entities)
      (fails : entities.require info.entity .toSelectOn = .error e) :
      Failed view built asked info direct draft (.fragmentSpread name directives :: ss) e
  | spread {info : TypeInfo} {direct : DirectSelections} {draft : Draft} {name : Name}
      {directives : List Directive} {ss : List Selection} {inclusion : Inclusion}
      {deferral : Deferral} {fragment : NamedFragment} {e : BuildError}
      (found : NamedFragment.find? built name = some fragment)
      (fails : Walk.addSpread info direct ⟨fragment.handle,
        Walk.spreadSite view info fragment.definition.typeCondition, inclusion, deferral⟩
        = .error e) :
      Failed view built asked info direct draft (.fragmentSpread name directives :: ss) e

/-- The first selection that cannot be walked is the same with more of them after it. -/
theorem Failed.append {view : SchemaView} {built : List NamedFragment}
    {asked : Name → BuildError → Prop} {info : TypeInfo} {direct : DirectSelections} {draft : Draft}
    {ss : List Selection} {e : BuildError} (h : Failed view built asked info direct draft ss e)
    (ts : List Selection) : Failed view built asked info direct draft (ss ++ ts) e := by
  induction h with
  | later first _ ih => exact later first ih
  | unread fails => exact unread fails
  | undeferred fragment kept fails => exact undeferred fragment kept fails
  | noTree fails => exact noTree fails
  | noType included fails => exact noType included fails
  | leaf included isLeaf fails => exact leaf included isLeaf fails
  | noEntity fails => exact noEntity fails
  | inField included isComposite selected inner => exact inField included isComposite selected inner
  | entity included isComposite selected inner fails =>
      exact entity included isComposite selected inner fails
  | inFlat read scope deferred flattens inside => exact inFlat read scope deferred flattens inside
  | inInline read scope deferred opens inside => exact inInline read scope deferred opens inside
  | inline read scope deferred opens inside fails =>
      exact inline read scope deferred opens inside fails
  | lookUp included fails => exact lookUp included fails
  | merge found fails => exact merge found fails
  | noTreeMerged found merged fails => exact noTreeMerged found merged fails
  | spread found fails => exact spread found fails

/-! ## A walk that fails has failed -/

namespace Walk

theorem Fails.kept {α : Type} {R : Progress → Progress → Prop} {w : Walk α} (keeps : w.Keeps R)
    {d : Draft} {p p' : Progress} {e : BuildError} (h : w.Fails d p e p') : R p p' := by
  have := keeps d p
  rw [h] at this
  exact this

/-- The look-up was asked for a fragment at some progress, and answered with an error that left the
session at `p'`. -/
def Asked (fragmentNamed : Name → Build NamedFragment) (p' : Progress) (name : Name)
    (e : BuildError) : Prop :=
  ∃ p, (fragmentNamed name).result p = (.error e, p')

variable {view : SchemaView} {fragmentNamed : Name → Build NamedFragment} {p' : Progress}
  {e : BuildError}

theorem failed_spread (lookUp : LookUp fragmentNamed) {info : TypeInfo} {direct : DirectSelections}
    {name : Name} {directives : List Directive} {draft : Draft} {p : Progress}
    (h : (spread view fragmentNamed info direct name directives).Fails draft p e p') :
    Failed view p'.fragments (Asked fragmentNamed p') info direct draft
      [.fragmentSpread name directives] e := by
  rw [spread, fails_bind, fails_ofExcept] at h
  simp only [gives_ofExcept] at h
  obtain ⟨unread, -⟩ | ⟨_ | inclusion, _, _, ⟨included, rfl, rfl⟩, h⟩ := h
  · exact .unread unread
  · exact absurd h not_fails_pure
  have kept : ¬ (Selection.fragmentSpread name directives).Skipped := Selection.not_skipped included
  dsimp only at h
  rw [fails_bind, fails_ofExcept] at h
  simp only [gives_ofExcept] at h
  obtain ⟨undeferred, -⟩ | ⟨deferral, _, _, ⟨deferred, rfl, rfl⟩, h⟩ := h
  · exact .undeferred rfl kept undeferred
  rw [fails_bind, fails_ofBuild] at h
  simp only [gives_ofBuild] at h
  obtain ⟨asked⟩ | ⟨fragment, _, p₁, ⟨named, rfl⟩, h⟩ := h
  · exact .lookUp included ⟨p, asked⟩
  have found := lookUp.finds name p fragment p₁ named
  simp only [recordReference, noteDeferred, fails_bind, not_fails_modify, gives_modify, false_or,
    fails_mergeFragmentEntities, gives_mergeFragmentEntities, fails_modifyTree, gives_modifyTree,
    fails_ofExcept] at h
  obtain ⟨_, _, _, ⟨rfl, rfl⟩, _, _, _, ⟨rfl, rfl⟩, h⟩ := h
  obtain ⟨fails, rfl⟩ | ⟨_, _, _, ⟨entities, merged, rfl, rfl⟩, h⟩ := h
  · exact .merge found fails
  obtain ⟨fails, rfl⟩ | ⟨_, _, _, ⟨-, rfl, rfl⟩, fails, rfl⟩ := h
  · exact .noTreeMerged found merged fails
  · exact .spread found fails

mutual

theorem failed_one (lookUp : LookUp fragmentNamed) (info : TypeInfo) (direct : DirectSelections) :
    ∀ (s : Selection) (draft : Draft) (p : Progress),
      (one view fragmentNamed info direct s).Fails draft p e p' →
      Failed view p'.fragments (Asked fragmentNamed p') info direct draft [s] e
  | .field ⟨label, definition, arguments, directives, selections⟩, draft, p, h => by
      rw [one] at h
      simp only [fails_bind, fails_ofExcept, gives_ofExcept] at h
      obtain ⟨unread, -⟩ | ⟨_ | inclusion, _, _, ⟨included, rfl, rfl⟩, h⟩ := h
      · exact .unread unread
      · exact absurd h not_fails_pure
      simp only [fails_bind, not_fails_collect, false_or, gives_ofBuild, fails_modifyTree,
        gives_modifyTree, fails_ofExcept, gives_ofExcept] at h
      obtain ⟨_, _, p₁, ⟨-, rfl⟩, h⟩ := h
      obtain ⟨fails, -⟩ | ⟨_, _, _, ⟨-, rfl, rfl⟩, h⟩ := h
      · exact .noTree fails
      obtain ⟨fails, -⟩ | ⟨_ | _, _, _, ⟨composite, rfl, rfl⟩, h⟩ := h
      · exact .noType included fails
      · obtain ⟨fails, -⟩ := fails_ofExcept.mp h
        exact .leaf included composite fails
      simp only [if_true, fails_bind, fails_entityForField, gives_entityForField, not_fails_freshField,
        gives_freshField, false_or, fails_ofExcept] at h
      obtain ⟨fails, -⟩ | ⟨entity, _, _, ⟨entities, selected, rfl, rfl⟩, h⟩ := h
      · exact .noEntity fails
      obtain failed | ⟨below, _, p₂, inner, _, _, _, ⟨rfl, rfl, rfl⟩, fails, rfl⟩ := h
      · exact .inField included composite selected
          (failed_all lookUp _ selections _ _ _ failed)
      · exact .entity included composite selected
          (walked_all lookUp _ selections _ _ _ _ _ _ inner) fails
  | .inlineFragment condition directives selections, draft, p, h => by
      rw [one] at h
      simp only [fails_bind, fails_ofExcept, gives_ofExcept] at h
      obtain ⟨unread, -⟩ | ⟨verdict, _, _, ⟨read, rfl, rfl⟩, h⟩ := h
      · refine .unread ?_
        rw [Selection.directives, Inclusion.ofDirectives, unread]
        rfl
      cases scope : verdict.scope? with
      | none =>
          rw [scope] at h
          exact absurd h not_fails_pure
      | some conditions =>
          rw [scope] at h
          simp only [fails_bind, fails_ofExcept, gives_ofExcept, noteDeferred, not_fails_modify,
            gives_modify, false_or] at h
          obtain ⟨undeferred, -⟩ | ⟨deferral, _, _, ⟨deferred, rfl, rfl⟩, _, _, _, ⟨rfl, rfl⟩, h⟩ := h
          · refine .undeferred rfl ?_ undeferred
            rw [Selection.Skipped, Selection.directives, Inclusion.ofDirectives_of_verdict read, scope]
            simp
          split at h
          · rename_i flattens
            exact .inFlat read scope deferred flattens
              (failed_all lookUp _ selections _ _ _ h)
          · rename_i opens
            have opens := Bool.eq_false_iff.mpr opens
            simp only [fails_bind, fails_ofExcept] at h
            obtain failed | ⟨below, _, _, inside, fails, rfl⟩ := h
            · exact .inInline read scope deferred opens
                (failed_all lookUp _ selections _ _ _ failed)
            · exact .inline read scope deferred opens
                (walked_all lookUp _ selections _ _ _ _ _ _ inside) fails
  | .fragmentSpread name directives, draft, p, h => by
      rw [one] at h
      exact failed_spread lookUp h

/-- A walk that fails has failed, with the fragments built by then. -/
theorem failed_all (lookUp : LookUp fragmentNamed) (info : TypeInfo) :
    ∀ (ss : List Selection) (direct : DirectSelections) (draft : Draft) (p : Progress),
      (all view fragmentNamed info direct ss).Fails draft p e p' →
      Failed view p'.fragments (Asked fragmentNamed p') info direct draft ss e
  | [], direct, draft, p, h => by
      rw [all] at h
      exact absurd h not_fails_pure
  | s :: ss, direct, draft, p, h => by
      rw [all, fails_bind] at h
      obtain failed | ⟨direct₁, draft₁, p₁, first, second⟩ := h
      · exact (failed_one lookUp info direct s draft p failed).append ss
      · have more := Fails.kept (keeps_fragments lookUp info direct₁ ss) second
        have one := walked_one lookUp info direct s draft p direct₁ draft₁ p₁ first
        exact .later (one.mono more)
          (failed_all lookUp info ss direct₁ draft₁ p₁ second)

end

end Walk
end SelectionGraph
