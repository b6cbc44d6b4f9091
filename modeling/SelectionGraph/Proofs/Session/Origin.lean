import SelectionGraph.Proofs.Entity.Storage
import SelectionGraph.Proofs.Session.Failed

/-!
# Origin — which part of a build an error comes from

Every function that a walk is made of gives errors of one origin only:

* `BuildError.origin`           — the fragments, types, arguments, selections or entities that an error
  is about;
* `origin_ofDirectives`, `origin_merge`, `origin_mergeFragmentEntities` and so on — the origin of the
  errors of each function;
* `Failed.spreads_of_fragment`  — an error about a fragment comes from the look-up of fragments.
-/

namespace SelectionGraph

namespace BuildError

/-- What an error is about. -/
inductive Origin
  | fragment
  | operation
  | type
  | argument
  | selection
  | entity
  deriving DecidableEq, Repr

def origin : BuildError → Origin
  | cyclicFragment _ _ => .fragment
  | unknownFragment _ => .fragment
  | unknownOperation _ => .operation
  | unknownType _ => .type
  | invalidArgument _ _ _ => .argument
  | fieldConflict _ _ _ => .selection
  | entityConflict _ => .selection
  | unknownEntity _ _ => .entity
  | rootTypeConflict _ _ _ => .entity

end BuildError

variable {e : BuildError}

/-! ## Directives and types -/

theorem Verdict.origin_read {directives : List Directive} :
    ∀ {conditions : List Condition}, Verdict.read conditions directives = .error e →
      e.origin = .argument := by
  induction directives with
  | nil =>
      intro conditions failed
      cases failed
  | cons d rest ih =>
      intro conditions failed
      rw [Verdict.read] at failed
      split at failed
      · exact ih failed
      · split at failed
        · cases failed
          rfl
        · split at failed
          · cases failed
          · exact ih failed
        · exact ih failed
        · cases failed
          rfl

theorem Inclusion.origin_ofDirectives {directives : List Directive}
    (failed : Inclusion.ofDirectives directives = .error e) : e.origin = .argument := by
  rcases bind_eq_error.mp failed with unread | ⟨verdict, -, never⟩
  · exact Verdict.origin_read unread
  · cases never

theorem Deferral.origin_ofDirectives {directives : List Directive}
    (failed : Deferral.ofDirectives directives = .error e) : e.origin = .argument := by
  unfold Deferral.ofDirectives at failed
  split at failed
  · cases failed
  · split at failed <;> cases failed
    rfl

theorem SchemaView.origin_isComposite {view : SchemaView} {name : Name}
    (failed : view.isComposite name = .error e) : e.origin = .type := by
  unfold SchemaView.isComposite at failed
  split at failed <;> cases failed
  rfl

/-! ## Entities -/

namespace EntityStorage

variable {s : EntityStorage}

theorem origin_require {id : EntityId} {lookup : EntityLookup}
    (failed : s.require id lookup = .error e) : e.origin = .entity := by
  unfold require at failed
  split at failed <;> cases failed
  rfl

theorem origin_entityForField {enclosing : EntityId} {component : PathComponent}
    (failed : s.entityForField enclosing component = .error e) : e.origin = .entity := by
  rcases bind_eq_error.mp failed with unknown | ⟨_, -, never⟩
  · exact origin_require unknown
  · cases never

theorem origin_mergeEntity {site added : Entity} {scope : ScopePath} {guard : Inclusion}
    (failed : s.mergeEntity site scope guard added = .error e) : e.origin = .entity := by
  unfold mergeEntity at failed
  split at failed
  · cases failed
  · dsimp only at failed
    split at failed <;> cases failed
    rfl

theorem origin_mergeFragmentEntities {site : EntityId} {scope : ScopePath} {guard : Inclusion}
    {fragment : EntityStorage} (failed : s.mergeFragmentEntities site scope guard fragment = .error e) :
    e.origin = .entity := by
  rcases bind_eq_error.mp failed with unknown | ⟨entity, -, folding⟩
  · exact origin_require unknown
  · -- The first entity of the fragment that cannot be merged gives the error.
    have each : ∀ (added : List Entity) (s : EntityStorage),
        added.foldlM (fun s a => s.mergeEntity entity scope guard a) s = .error e →
        e.origin = .entity := by
      intro added
      induction added with
      | nil =>
          intro s never
          cases never
      | cons a rest ih =>
          intro s failed
          rw [List.foldlM_cons] at failed
          rcases bind_eq_error.mp failed with first | ⟨s', -, later⟩
          · exact origin_mergeEntity first
          · exact ih s' later
    exact each fragment.entities s folding

end EntityStorage

/-! ## Direct selections -/

namespace DirectSelections

theorem origin_addScalar {d : DirectSelections} {f : ScalarField}
    (failed : d.addScalar f = .error e) : e.origin = .selection := by
  unfold addScalar at failed
  split at failed <;> cases failed
  rfl

mutual

theorem origin_merge : ∀ added d : DirectSelections, d.merge added = .error e →
    e.origin = .selection
  | ⟨fields, inlines, spreads⟩, d, failed => by
      rw [merge] at failed
      rcases bind_eq_error.mp failed with first | ⟨d₁, -, failed⟩
      · exact origin_mergeFields fields d first
      rcases bind_eq_error.mp failed with second | ⟨d₂, -, never⟩
      · exact origin_mergeInlines inlines d₁ second
      · cases never

theorem origin_mergeFields : ∀ (fields : List Field) (d : DirectSelections),
    d.mergeFields fields = .error e → e.origin = .selection
  | [], d, failed => by
      rw [mergeFields] at failed
      cases failed
  | .scalar f :: rest, d, failed => by
      rw [mergeFields] at failed
      rcases bind_eq_error.mp failed with first | ⟨d₁, -, later⟩
      · exact origin_addScalar first
      · exact origin_mergeFields rest d₁ later
  | .entity ⟨id, responseKey, type, node, inclusion, ⟨typeInfo, direct⟩⟩ :: rest, d, failed => by
      rw [mergeFields] at failed
      split at failed
      · exact origin_mergeFields rest _ failed
      · cases failed
        rfl
      · rename_i held found
        split at failed
        · rcases bind_eq_error.mp failed with inner | ⟨below, -, later⟩
          · exact origin_merge direct held.selectionSet.direct inner
          · exact origin_mergeFields rest _ later
        · cases failed
          rfl

theorem origin_mergeInlines : ∀ (inlines : List InlineSpread) (d : DirectSelections),
    d.mergeInlines inlines = .error e → e.origin = .selection
  | [], d, failed => by
      rw [mergeInlines] at failed
      cases failed
  | ⟨⟨typeInfo, direct⟩, deferral⟩ :: rest, d, failed => by
      rw [mergeInlines] at failed
      dsimp only at failed
      split at failed
      · exact origin_mergeInlines rest _ failed
      · rename_i held found
        rcases bind_eq_error.mp failed with inner | ⟨below, -, later⟩
        · exact origin_merge direct held.selectionSet.direct inner
        · exact origin_mergeInlines rest _ later

end

end DirectSelections

theorem Walk.origin_addSpread {info : TypeInfo} {direct : DirectSelections} {spread : NamedSpread}
    (failed : Walk.addSpread info direct spread = .error e) : e.origin = .selection := by
  unfold Walk.addSpread at failed
  split at failed
  · cases failed
  · exact DirectSelections.origin_mergeInlines _ _ failed

/-! ## Walks -/

/-- An error about a fragment is what the look-up answered for one that the walk comes to a spread
of. -/
theorem Failed.spreads_of_fragment {view : SchemaView} {built : List NamedFragment}
    {asked : Name → BuildError → Prop} {info : TypeInfo} {direct : DirectSelections} {draft : Draft}
    {ss : List Selection} (h : Failed view built asked info direct draft ss e)
    (fragment : e.origin = .fragment) : ∃ name, Spreads view ss name ∧ asked name e := by
  -- Errors of any other origin rule out the rule they come from.
  have other : ∀ {origin : BuildError.Origin}, e.origin = origin → origin = .fragment :=
    fun is => is.symm.trans fragment
  induction h with
  | later _ _ ih =>
      obtain ⟨name, ⟨directives, visited⟩, answer⟩ := ih fragment other
      exact ⟨name, ⟨directives, Visited.cons_iff.mpr (Or.inr visited)⟩, answer⟩
  | unread fails => cases other (Inclusion.origin_ofDirectives fails)
  | undeferred _ _ fails => cases other (Deferral.origin_ofDirectives fails)
  | noTree fails => cases other (EntityStorage.origin_require fails)
  | noType _ fails => cases other (SchemaView.origin_isComposite fails)
  | leaf _ _ fails => cases other (DirectSelections.origin_mergeFields _ _ fails)
  | noEntity fails => cases other (EntityStorage.origin_entityForField fails)
  | inField included isComposite _ _ ih =>
      obtain ⟨name, ⟨directives, visited⟩, answer⟩ := ih fragment other
      exact ⟨name, ⟨directives, .field (List.mem_cons_self ..) (Selection.not_skipped included)
        isComposite visited⟩, answer⟩
  | entity _ _ _ _ fails => cases other (DirectSelections.origin_mergeFields _ _ fails)
  | inFlat read scope _ _ _ ih =>
      have included := Inclusion.ofDirectives_of_verdict read
      rw [scope] at included
      obtain ⟨name, ⟨directives, visited⟩, answer⟩ := ih fragment other
      exact ⟨name, ⟨directives, .inline (List.mem_cons_self ..) (Selection.not_skipped included)
        visited⟩, answer⟩
  | inInline read scope _ _ _ ih =>
      have included := Inclusion.ofDirectives_of_verdict read
      rw [scope] at included
      obtain ⟨name, ⟨directives, visited⟩, answer⟩ := ih fragment other
      exact ⟨name, ⟨directives, .inline (List.mem_cons_self ..) (Selection.not_skipped included)
        visited⟩, answer⟩
  | inline _ _ _ _ _ fails => cases other (DirectSelections.origin_mergeInlines _ _ fails)
  | lookUp included answer =>
      exact ⟨_, ⟨_, .here (List.mem_cons_self ..) (Selection.not_skipped included)⟩, answer⟩
  | merge _ fails => cases other (EntityStorage.origin_mergeFragmentEntities fails)
  | noTreeMerged _ _ fails => cases other (EntityStorage.origin_require fails)
  | spread _ fails => cases other (Walk.origin_addSpread fails)

end SelectionGraph
