import SelectionGraph.Proofs.Direct.Landing
import SelectionGraph.Proofs.Document.Resolved
import SelectionGraph.Proofs.Entity.Arises
import SelectionGraph.Proofs.Session.Cycles

/-!
# Causes — exactly when a build fails

* `Failed.cause`            — a walk fails for directives that cannot be read, for a fragment, or for
  two fields that cannot be one, and for nothing else;
* `ExecutableDefinition.Faulty` — a definition involves one of these;
* `builds_fail_for_their_faults` — a build fails exactly if its definition is faulty.
-/

namespace SelectionGraph

variable {view : SchemaView} {document : Document} {built : List NamedFragment}

/-! ## Why a walk fails -/

/-- Why the walk of selections on `type` fails that are added to direct selections. -/
inductive Cause (view : SchemaView) (asked : Name → BuildError → Prop) (type : Name)
    (direct : DirectSelections) (ss : List Selection) (e : BuildError) : Prop
  | unread {s : Selection} (visited : Visited view ss s)
      (fails : Inclusion.ofDirectives s.directives = .error e)
  | undeferred {s : Selection} (visited : Visited view ss s) (fragment : s.isFragment = true)
      (fails : Deferral.ofDirectives s.directives = .error e)
  | lookUp {name : Name} (spreads : Spreads view ss name) (answer : asked name e)
  | clash {chain : List SetKey} {key : Name} {shape shape' : Option TypeRef}
      (conflict : e.origin = .selection) (differ : shape ≠ shape')
      (one : direct.Holds chain key shape ∨ Landed view type ss chain key shape)
      (other : direct.Holds chain key shape' ∨ Landed view type ss chain key shape')

namespace Cause

variable {asked : Name → BuildError → Prop} {type type' : Name} {direct direct' : DirectSelections}
  {ss ts : List Selection} {e : BuildError}

/-- A cause among some selections is one among those they stand in. -/
theorem lift (h : Cause view asked type direct ss e)
    (sub : ∀ s, Visited view ss s → Visited view ts s) (into : List SetKey → List SetKey)
    (holds : ∀ chain key shape, direct.Holds chain key shape ∨ Landed view type ss chain key shape →
      direct'.Holds (into chain) key shape ∨ Landed view type' ts (into chain) key shape) :
    Cause view asked type' direct' ts e := by
  cases h with
  | unread visited fails => exact .unread (sub _ visited) fails
  | undeferred visited fragment fails => exact .undeferred (sub _ visited) fragment fails
  | lookUp spreads answer =>
      obtain ⟨directives, visited⟩ := spreads
      exact .lookUp ⟨directives, sub _ visited⟩ answer
  | clash conflict differ one other =>
      exact .clash conflict differ (holds _ _ _ one) (holds _ _ _ other)

/-- Two sets that clash, where what one of them holds is landed by the first selection. -/
theorem of_clash {s : Selection} {added : DirectSelections} (conflict : e.origin = .selection)
    (h : direct.Clash added) (lands : ∀ chain key shape, added.Holds chain key shape →
      Landed view type [s] chain key shape) : Cause view asked type direct (s :: ss) e := by
  obtain ⟨chain, key, shape, shape', differ, held, adds⟩ := h
  exact .clash conflict differ (Or.inl held) (Or.inr (landed_cons.mpr (Or.inl (lands _ _ _ adds))))

/-- A cause that comes after a selection that could be walked. -/
theorem later {path : FieldPath} {s : Selection} {direct₁ : DirectSelections}
    {entities : EntityStorage} (lands : Lands view type path [s] direct direct₁ entities)
    (h : Cause view asked type direct₁ ss e) : Cause view asked type direct (s :: ss) e := by
  refine h.lift (fun s visited => Visited.cons_iff.mpr (Or.inr visited)) id ?_
  rintro chain key shape (holds | landed)
  · rcases (lands.holds _ _ _).mp holds with before | here
    · exact Or.inl before
    · exact Or.inr (landed_cons.mpr (Or.inl here))
  · exact Or.inr (landed_cons.mpr (Or.inr landed))

/-- A cause below a composite field. -/
theorem inField {f : FieldSelection} {inclusion : Inclusion}
    (included : Inclusion.ofDirectives f.directives = .ok (some inclusion))
    (isComposite : view.isComposite f.type.innerName = .ok true)
    (h : Cause view asked f.type.innerName .empty f.selections e) :
    Cause view asked type direct (.field f :: ss) e := by
  have kept : ¬ (Selection.field f).Skipped := Selection.not_skipped included
  refine h.lift (fun s => .field (List.mem_cons_self ..) kept isComposite)
    (.field f.responseKey :: ·) ?_
  rintro chain key shape (holds | ⟨g, lands, offered⟩)
  · exact absurd holds DirectSelections.not_holds_empty
  · have below : (Selection.field f).Lands view type (.field f.responseKey :: chain) g :=
      lands_field.mpr ⟨⟨_, included⟩, Or.inr ⟨isComposite, chain, rfl, lands⟩⟩
    exact Or.inr ⟨g, Or.inl below, offered⟩

section InlineFragment

variable {info : TypeInfo} {condition : Option Name} {directives : List Directive}
  {inner : List Selection} {verdict : Verdict} {conditions : Option Conjunction}
  {deferral : Deferral}

/-- A cause in an inline fragment that is flattened. -/
theorem inFlat (read : Verdict.ofDirectives directives = .ok verdict)
    (scope : verdict.scope? = some conditions)
    (deferred : Deferral.ofDirectives directives = .ok deferral)
    (flattens : info.flattens condition conditions deferral = true)
    (h : Cause view asked info.parentType direct inner e) :
    Cause view asked info.parentType direct (.inlineFragment condition directives inner :: ss) e := by
  have included := Inclusion.ofDirectives_of_verdict read
  rw [scope] at included
  refine h.lift (fun s => .inline (List.mem_cons_self ..) (Selection.not_skipped included)) id ?_
  rintro chain key shape (holds | landed)
  · exact Or.inl holds
  · exact Or.inr (landed_cons.mpr (Or.inl ((landed_flat read scope deferred flattens).mpr landed)))

/-- A cause in an inline fragment that opens a scope. -/
theorem inInline (read : Verdict.ofDirectives directives = .ok verdict)
    (scope : verdict.scope? = some conditions)
    (deferred : Deferral.ofDirectives directives = .ok deferral)
    (opens : info.flattens condition conditions deferral = false)
    (h : Cause view asked (info.inside view condition conditions).parentType .empty inner e) :
    Cause view asked info.parentType direct (.inlineFragment condition directives inner :: ss) e := by
  have included := Inclusion.ofDirectives_of_verdict read
  rw [scope] at included
  refine h.lift (fun s => .inline (List.mem_cons_self ..) (Selection.not_skipped included))
    (.scope ⟨condition.getD info.parentType, conditions⟩ deferral :: ·) ?_
  rintro chain key shape (holds | ⟨g, lands, offered⟩)
  · exact absurd holds DirectSelections.not_holds_empty
  · have within := (lands_inline read scope deferred opens).mpr ⟨_, chain, rfl, BEq.rfl, lands⟩
    exact Or.inr ⟨g, Or.inl within, offered⟩

end InlineFragment

end Cause

/-! ## What can be in the way of one selection -/

section OneSelection

variable {entities : EntityStorage} {path : FieldPath} {direct : DirectSelections} {e : BuildError}

/-- A field that cannot be added clashes with one that is held. -/
theorem EntityStorage.WellFormed.clash_addField (wellFormed : entities.WellFormed) {field : Field}
    (held : direct.Placed entities.Locates path)
    (placed : (DirectSelections.mk [field] [] []).Placed entities.Locates path)
    (tidy : (DirectSelections.mk [field] [] []).Tidy (fun _ => True) fun _ => True)
    (fails : direct.addField field = .error e) :
    e.origin = .selection ∧ direct.Clash (.mk [field] [] []) :=
  ⟨DirectSelections.origin_mergeFields _ _ fails,
    DirectSelections.clash_fields entities.locates_functional
      (fun _ _ _ => wellFormed.pathOf?_injective) _ _ path held placed tidy fails⟩

/-- An inline spread that cannot be added has a field that clashes with one that is held. -/
theorem EntityStorage.WellFormed.clash_addInline (wellFormed : entities.WellFormed)
    {spread : InlineSpread} (held : direct.Placed entities.Locates path)
    (placed : (DirectSelections.mk [] [spread] []).Placed entities.Locates path)
    (tidy : (DirectSelections.mk [] [spread] []).Tidy (fun _ => True) fun _ => True)
    (fails : direct.addInline spread = .error e) :
    e.origin = .selection ∧ direct.Clash (.mk [] [spread] []) :=
  ⟨DirectSelections.origin_mergeInlines _ _ fails,
    DirectSelections.clash_inlines entities.locates_functional
      (fun _ _ _ => wellFormed.pathOf?_injective) _ _ path held placed tidy fails⟩

theorem EntityStorage.Locates.require_ne_error {id : EntityId} (h : entities.Locates id path)
    (lookup : EntityLookup) (e : BuildError) : entities.require id lookup ≠ .error e := by
  intro fails
  obtain ⟨entity, found, -⟩ := EntityStorage.pathOf?_eq_some_iff.mp h
  rw [EntityStorage.require_eq_ok_iff.mpr found] at fails
  cases fails

/-- Selecting a field fails on no entity that is there. -/
theorem EntityStorage.Locates.entityForField_ne_error {id : EntityId} (h : entities.Locates id path)
    (component : PathComponent) (e : BuildError) : entities.entityForField id component ≠ .error e := by
  intro fails
  rcases bind_eq_error.mp fails with missing | ⟨_, -, never⟩
  · exact h.require_ne_error _ _ missing
  · cases never

theorem Walk.entity_spreadSite (view : SchemaView) (info : TypeInfo) (typeCondition : Name) :
    (Walk.spreadSite view info typeCondition).entity = info.entity := by
  unfold Walk.spreadSite
  split <;> rfl

theorem Walk.last?_spreadSite {info : TypeInfo} {typeCondition : Name} {scope : Scope}
    (opened : Walk.spreadScope? info typeCondition = some scope) :
    (Walk.spreadSite view info typeCondition).scopePath.last? = some scope := by
  simp only [Walk.spreadSite, opened, TypeInfo.last?_enter]

/-- A spread can be added to any set: it has no field that could clash. -/
theorem Walking.addSpread_ne_error {info : TypeInfo} {draft : Draft}
    (walking : Walking built info path direct draft) (handle : FragmentHandle)
    (inclusion : Inclusion) (deferral : Deferral) (e : BuildError) :
    Walk.addSpread info direct
      ⟨handle, Walk.spreadSite view info handle.typeCondition, inclusion, deferral⟩ ≠ .error e := by
  intro fails
  rw [Walk.addSpread] at fails
  cases opened : Walk.spreadScope? info handle.typeCondition with
  | none =>
      simp only [opened] at fails
      cases fails
  | some scope =>
      simp only [opened] at fails
      let spread : NamedSpread :=
        ⟨handle, Walk.spreadSite view info handle.typeCondition, inclusion, deferral⟩
      let alone : InlineSpread := ⟨⟨spread.typeInfo, DirectSelections.empty.addSpread spread⟩, .immediate⟩
      have nothing : DirectSelections.empty.Placed draft.entities.Locates path := .nothing
      have placed : (DirectSelections.mk [] [alone] []).Placed draft.entities.Locates path :=
        .oneInline (nothing.addSpread spread)
      have tidy : (DirectSelections.mk [] [alone] []).Tidy (fun _ => True) fun _ => True := by
        refine .oneInline ?_ (DirectSelections.Tidy.nothing.addSpread trivial)
        rw [InlineSpread.typeInfo, Walk.last?_spreadSite opened]
        rfl
      obtain ⟨-, chain, key, shape, shape', -, -, adds⟩ :=
        walking.wellFormed.clash_addInline walking.placed placed tidy fails
      rw [DirectSelections.holds_one_inline] at adds
      rcases chain with _ | ⟨_ | _, rest⟩
      · cases adds
      · cases adds
      · exact absurd ((DirectSelections.holds_addSpread _).mp adds.2)
          DirectSelections.not_holds_empty

end OneSelection

/-! ## A walk that fails -/

section Failed

variable (fragments : ∀ g ∈ built, g.Inlined view document)
  (closed : ∀ g ∈ built, g.built.Refers built) {asked : Name → BuildError → Prop}
  {info : TypeInfo} {direct : DirectSelections} {draft : Draft} {path : FieldPath}
  {ss : List Selection} {e : BuildError}

/-- A leaf cannot be added. -/
theorem Walking.cause_leaf (walking : Walking built info path direct draft) {f : FieldSelection}
    {inclusion : Inclusion} (included : Inclusion.ofDirectives f.directives = .ok (some inclusion))
    (isLeaf : view.isComposite f.type.innerName = .ok false)
    (fails : direct.addField (.scalar ⟨f, inclusion⟩) = .error e) :
    Cause view asked info.parentType direct (.field f :: ss) e := by
  obtain ⟨conflict, clash⟩ := walking.wellFormed.clash_addField walking.placed
    (.oneField (by simp)) (.oneField (by simp)) fails
  refine .of_clash conflict clash fun chain key shape => ?_
  rw [DirectSelections.holds_one_field, landed_leaf included isLeaf]
  exact id

include fragments

/-- A fragment that is built can be merged on the entity of a set, and leaves it there. -/
theorem Walking.merges (walking : Walking built info path direct draft) {name : Name}
    {fragment : NamedFragment} (found : NamedFragment.find? built name = some fragment)
    (typeCondition : Name) (scope : ScopePath) (inclusion : Inclusion) :
    ∃ entities, draft.entities.mergeFragmentEntities (Walk.spreadSite view info typeCondition).entity
        scope inclusion fragment.built.entities = .ok entities
      ∧ entities.Locates info.entity path := by
  obtain ⟨mem, -⟩ := NamedFragment.mem_of_find? found
  obtain ⟨site, get, -⟩ := EntityStorage.pathOf?_eq_some_iff.mp walking.located
  rw [Walk.entity_spreadSite]
  obtain ⟨entities, merged⟩ := EntityStorage.exists_mergeFragmentEntities walking.wellFormed
    (fragments _ mem).entities.wellFormed get
  have grows := EntityStorage.grows_mergeFragmentEntities walking.wellFormed
    (fragments _ mem).entities.wellFormed walking.located merged
  exact ⟨entities, merged, grows.extended.paths _ _ walking.located⟩

include closed

/-- A composite field cannot be added, with the selections below it. -/
theorem Walking.cause_entity (walking : Walking built info path direct draft) {f : FieldSelection}
    {inclusion : Inclusion} {entities : EntityStorage} {entity : EntityId}
    {below : DirectSelections} {draft₁ : Draft}
    (included : Inclusion.ofDirectives f.directives = .ok (some inclusion))
    (isComposite : view.isComposite f.type.innerName = .ok true)
    (selected : (draft.insertField info f inclusion).entities.entityForField info.entity
      ⟨f.responseKey, f.type⟩ = .ok (entity, entities))
    (inner : Walked view built (f.inside view entity) .empty
      { draft.insertField info f inclusion with entities } f.selections below draft₁)
    (fails : direct.addField (f.build draft₁.nextId inclusion ⟨f.inside view entity, below⟩)
      = .error e) : Cause view asked info.parentType direct (.field f :: ss) e := by
  obtain ⟨walkingInner, extended⟩ := walking.inField isComposite selected
  have inside := inner.lands fragments closed walkingInner
  have after := walkingInner.after fragments closed inner inside.placed
  have held := walkingInner.placed_after fragments closed inner (walking.placed.imp extended.paths)
  have tidy : (DirectSelections.mk [f.build draft₁.nextId inclusion
      ⟨f.inside view entity, below⟩] [] []).Tidy (fun _ => True) fun _ => True := by
    refine .oneField ?_
    rintro _ ⟨⟩
    exact ⟨trivial, after.tidy.imp (fun _ _ => trivial) fun _ _ => trivial⟩
  obtain ⟨conflict, clash⟩ := after.wellFormed.clash_addField held
    (.oneField (by rintro _ ⟨⟩; exact ⟨after.located, inside.placed⟩)) tidy fails
  refine .of_clash conflict clash fun chain key shape => ?_
  rw [DirectSelections.holds_one_field, landed_entity included isComposite inside.of_empty]
  exact id

/-- An inline fragment that opens a scope cannot be added, with the selections in it. -/
theorem Walking.cause_inline (walking : Walking built info path direct draft)
    {condition : Option Name} {directives : List Directive} {inner : List Selection}
    {verdict : Verdict} {conditions : Option Conjunction} {deferral : Deferral}
    {below : DirectSelections} {draft₁ : Draft}
    (read : Verdict.ofDirectives directives = .ok verdict)
    (scope : verdict.scope? = some conditions)
    (deferred : Deferral.ofDirectives directives = .ok deferral)
    (opens : info.flattens condition conditions deferral = false)
    (within : Walked view built (info.inside view condition conditions) .empty
      (draft.noteDeferred deferral) inner below draft₁)
    (fails : direct.addInline ⟨⟨info.inside view condition conditions, below⟩, deferral⟩ = .error e) :
    Cause view asked info.parentType direct (.inlineFragment condition directives inner :: ss) e := by
  have walkingInner : Walking built (info.inside view condition conditions) path .empty
      (draft.noteDeferred deferral) :=
    (walking.noteDeferred deferral).inScope condition conditions
  have inside := within.lands fragments closed walkingInner
  have after := walkingInner.after fragments closed within inside.placed
  have held := walkingInner.placed_after fragments closed within walking.placed
  have tidy : (DirectSelections.mk []
      [⟨⟨info.inside view condition conditions, below⟩, deferral⟩] []).Tidy (fun _ => True)
      fun _ => True := by
    refine .oneInline ?_ (after.tidy.imp (fun _ _ => trivial) fun _ _ => trivial)
    rw [InlineSpread.typeInfo, TypeInfo.inside, TypeInfo.last?_enter]
    rfl
  obtain ⟨conflict, clash⟩ := after.wellFormed.clash_addInline held (.oneInline inside.placed) tidy
    fails
  refine .of_clash conflict clash fun chain key shape => ?_
  rw [DirectSelections.holds_one_inline, landed_inline read scope deferred opens inside.of_empty]
  exact id

/-- A walk on types that are known fails for one of the causes.  Its entities are never in the way:
each set has one, and a fragment can be merged wherever there is one. -/
theorem Failed.cause (h : Failed view built asked info direct draft ss e) :
    ∀ {path : FieldPath}, Walking built info path direct draft →
      (∀ name ∈ Selection.typesAll info.parentType ss, view.Knows name) →
      Cause view asked info.parentType direct ss e := by
  induction h with
  | later first _ ih =>
      intro path walking known
      have lands := first.lands fragments closed walking
      have next := walking.after fragments closed first lands.placed
      exact .later lands (ih next fun name used => known name (List.mem_append_right _ used))
  | unread fails =>
      intro path walking known
      refine .unread (.here (List.mem_cons_self ..) ?_) fails
      intro skips
      cases skips.symm.trans fails
  | undeferred fragment kept fails =>
      intro path walking known
      exact .undeferred (.here (List.mem_cons_self ..) kept) fragment fails
  | noTree fails =>
      intro path walking known
      exact absurd fails (walking.located.require_ne_error _ _)
  | @noType info direct draft f ss inclusion e included fails =>
      intro path walking known
      obtain ⟨composite, isKnown⟩ := (known f.type.innerName (by
        cases f
        simp [Selection.typesAll, Selection.types, FieldSelection.type])).isComposite
      cases isKnown.symm.trans fails
  | leaf included isLeaf fails =>
      intro path walking known
      exact walking.cause_leaf included isLeaf fails
  | @noEntity info direct draft f ss inclusion e fails =>
      intro path walking known
      have located : (draft.insertField info f inclusion).entities.Locates info.entity path :=
        (EntityStorage.pathOf?_modifyTree _).trans walking.located
      exact absurd fails (located.entityForField_ne_error _ _)
  | @inField info direct draft entities entity f ss inclusion e included isComposite selected _ ih =>
      intro path walking known
      obtain ⟨walkingInner, -⟩ := walking.inField isComposite selected
      refine .inField included isComposite (ih walkingInner fun name used => known name ?_)
      cases f
      exact List.mem_append_left _ (List.mem_cons_of_mem _ (List.mem_cons_of_mem _ used))
  | entity included isComposite selected inner fails =>
      intro path walking known
      exact walking.cause_entity fragments closed included isComposite selected inner fails
  | @inFlat info direct draft condition directives inner ss verdict conditions deferral e read scope
      deferred flattens _ ih =>
      intro path walking known
      have same : condition.getD info.parentType = info.parentType := by
        simp only [TypeInfo.flattens, Bool.and_eq_true, beq_iff_eq] at flattens
        exact flattens.1.1
      refine .inFlat read scope deferred flattens
        (ih (walking.noteDeferred deferral) fun name used => known name ?_)
      rw [← same] at used
      exact List.mem_append_left _ (List.mem_cons_of_mem _ used)
  | @inInline info direct draft condition directives inner ss verdict conditions deferral e read
      scope deferred opens _ ih =>
      intro path walking known
      have type : (info.inside view condition conditions).parentType
          = condition.getD info.parentType := info.parentType_enter _ _
      refine .inInline read scope deferred opens
        (ih ((walking.noteDeferred deferral).inScope condition conditions)
          fun name used => known name ?_)
      rw [type] at used
      exact List.mem_append_left _ (List.mem_cons_of_mem _ used)
  | inline read scope deferred opens within fails =>
      intro path walking known
      exact walking.cause_inline fragments closed read scope deferred opens within fails
  | lookUp included answer =>
      intro path walking known
      exact .lookUp ⟨_, .here (List.mem_cons_self ..) (Selection.not_skipped included)⟩ answer
  | merge found fails =>
      intro path walking known
      obtain ⟨_, merges, -⟩ := walking.merges fragments found _ _ _
      cases merges.symm.trans fails
  | noTreeMerged found merged fails =>
      intro path walking known
      obtain ⟨_, merges, located⟩ := walking.merges fragments found _ _ _
      cases merges.symm.trans merged
      exact absurd fails (located.require_ne_error _ _)
  | spread _ fails =>
      intro path walking known
      exact absurd fails (walking.addSpread_ne_error _ _ _ _)

end Failed

/-! ## Faults of a definition -/

/-- What is in the way of building a definition, in itself or in a fragment that it involves: a
directive that cannot be read, a fragment that is not there, fragments that spread one another in a
circle, or two fields that cannot be one. -/
inductive ExecutableDefinition.Faulty (view : SchemaView) (document : Document)
    (d : ExecutableDefinition) : Prop
  | unread {x : ExecutableDefinition} {s : Selection} {e : BuildError}
      (involved : d.Involves view document x) (visited : Visited view x.selections s)
      (fails : Inclusion.ofDirectives s.directives = .error e)
  | undeferred {x : ExecutableDefinition} {s : Selection} {e : BuildError}
      (involved : d.Involves view document x) (visited : Visited view x.selections s)
      (fragment : s.isFragment = true) (fails : Deferral.ofDirectives s.directives = .error e)
  | undefined {x : ExecutableDefinition} {name : Name} (involved : d.Involves view document x)
      (spreads : Spreads view x.selections name) (unknown : document.fragment? name = none)
  | circle (involved : d.InvolvesCircle view document)
  | clash {x : ExecutableDefinition} (involved : d.Involves view document x)
      (clashes : x.Clashes view)

/-! ## Failure comes from a fault -/

/-- The errors that a document can cause: about its fragments, its arguments or its selections, not
about types or entities. -/
def BuildError.OfDocument (e : BuildError) : Prop :=
  e.origin = .fragment ∨ e.origin = .argument ∨ e.origin = .selection

section Faulty

variable {d x : ExecutableDefinition} {asked : Name → BuildError → Prop} {e : BuildError}
  {id : DefinitionId}

/-- If the walk of a definition involved fails then for a fault, or because a fragment that it
spreads cannot be had. -/
theorem FailedFrom.faulty (h : FailedFrom view built asked ⟨id, x⟩ e)
    (library : Library view document built)
    (known : ∀ name ∈ document.types, view.Knows name) (defined : document.Defines x)
    (involved : d.Involves view document x) :
    d.Faulty view document ∧ e.OfDocument
      ∨ ∃ name, Spreads view x.selections name ∧ asked name e := by
  have type : (SourceDefinition.info ⟨id, x⟩ view).parentType = x.rootType :=
    SourceDefinition.rootType_eq ⟨id, x⟩
  have types : ∀ name ∈ Selection.typesAll (SourceDefinition.info ⟨id, x⟩ view).parentType
      x.selections, view.Knows name := by
    rw [type]
    exact fun name used => known name (defined.types name used)
  have cause := Failed.cause library.inlined library.closed h (.start _) types
  rw [type] at cause
  cases cause with
  | unread visited fails =>
      exact Or.inl ⟨.unread involved visited fails,
        Or.inr (Or.inl (Inclusion.origin_ofDirectives fails))⟩
  | undeferred visited fragment fails =>
      exact Or.inl ⟨.undeferred involved visited fragment fails,
        Or.inr (Or.inl (Deferral.origin_ofDirectives fails))⟩
  | lookUp spreads answer => exact Or.inr ⟨_, spreads, answer⟩
  | clash conflict differ one other =>
      obtain ⟨f, landsF, rfl, rfl⟩ := one.resolve_left DirectSelections.not_holds_empty
      obtain ⟨g, landsG, same, rfl⟩ := other.resolve_left DirectSelections.not_holds_empty
      have clashes : x.Clashes view := ⟨_, f, g, landsF, landsG, same.symm, differ⟩
      exact Or.inl ⟨.clash involved clashes, Or.inr (Or.inr conflict)⟩

/-- The error of a fragment comes from a fault of each definition that involves it, or reports a
circle of spreads. -/
def Blames (view : SchemaView) (document : Document) (d : ExecutableDefinition) (name : Name)
    (e : BuildError) : Prop :=
  (document.fragment? name = none → d.Faulty view document) →
    (∀ f, document.fragment? name = some f → d.Involves view document (.fragment f.definition)) →
    (d.Faulty view document ∨ ∃ fragment chain, e = .cyclicFragment fragment chain) ∧ e.OfDocument

theorem Build.fragmentNamed_blames {p p' : Progress} (library : Library view document p'.fragments)
    (known : ∀ name ∈ document.types, view.Knows name) {inProgress : List Name} {name : Name}
    (h : (fragmentNamed view document inProgress name).result p = (.error e, p')) :
    Blames view document d name e := by
  refine fragmentNamed_failed (P := fun _ => Blames view document d) ?circle ?unknown ?inside
    inProgress name p e h
  case circle =>
    intro inProgress name _ _ _
    exact ⟨Or.inr ⟨_, _, rfl⟩, Or.inl rfl⟩
  case unknown =>
    intro inProgress name undefined faulty _
    exact ⟨Or.inl (faulty undefined), Or.inl rfl⟩
  case inside =>
    intro inProgress name f id e _ defined failed _ involved
    have involves := involved f defined
    rcases failed.faulty library known (Document.defines_of_fragment? defined) involves with
      ⟨faulty, origin⟩ | ⟨next, spreads, answer⟩
    · exact ⟨Or.inl faulty, origin⟩
    · exact answer (.undefined involves spreads) fun g => .spread involves spreads

/-! ## A fault is found -/

/-- What was built involves no two fields that cannot be one: they would be held side by side. -/
theorem WalkedFrom.not_clashes {source : SourceDefinition} {rootName : Name} {b : BuiltSelections}
    (library : Library view document built) (h : WalkedFrom view built source rootName b) :
    ¬ source.definition.Clashes view := by
  rintro ⟨chain, f, g, landsF, landsG, same, differ⟩
  obtain ⟨direct, draft, walked, -⟩ := h
  have lands := walked.lands library.inlined library.closed (.start source)
  have walking := (Walking.start source).after library.inlined library.closed walked lands.placed
  rw [show (source.info view).parentType = source.definition.rootType from source.rootType_eq]
    at lands
  have one := (lands.holds chain f.responseKey (view.shape f)).mpr (Or.inr ⟨f, landsF, rfl, rfl⟩)
  have other := (lands.holds chain f.responseKey (view.shape g)).mpr
    (Or.inr ⟨g, landsG, same.symm, rfl⟩)
  exact differ (walking.tidy.holds_unique one other)

/-- What was built has no fault. -/
theorem WalkedFrom.not_faulty {source : SourceDefinition} {rootName : Name} {b : BuiltSelections}
    (library : Library view document built) (h : WalkedFrom view built source rootName b) :
    ¬ source.definition.Faulty view document := by
  intro faulty
  cases faulty with
  | unread involved visited fails =>
      obtain ⟨_, _, _, _, _, walked⟩ := h.involved library involved
      obtain ⟨_, included⟩ := (walked.settled visited).included
      cases included.symm.trans fails
  | undeferred involved visited fragment fails =>
      obtain ⟨_, _, _, _, _, walked⟩ := h.involved library involved
      obtain ⟨_, deferred⟩ := (walked.settled visited).deferred fragment
      cases deferred.symm.trans fails
  | undefined involved spreads unknown =>
      obtain ⟨_, _, _, _, earlier, walked⟩ := h.involved library involved
      obtain ⟨g, found⟩ := walked.found spreads
      obtain ⟨mem, named⟩ := NamedFragment.mem_of_find? found
      obtain ⟨f, defined, -⟩ := earlier.defined g mem
      rw [named, unknown] at defined
      cases defined
  | circle involved => exact h.not_involvesCircle library involved
  | clash involved clashes =>
      obtain ⟨_, _, _, _, earlier, walked⟩ := h.involved library involved
      exact walked.not_clashes earlier clashes

end Faulty

/-! ## Sessions -/

/-- A session that answers with an error does so for a fault. -/
theorem Session.Outcome.faulty {s : Session} {d : ExecutableDefinition} {e : BuildError}
    (reachable : s.Reachable document) (defined : document.Defines d) (h : s.Outcome d (.error e)) :
    d.Faulty s.view document ∧ e.OfDocument := by
  have sound := reachable.sound
  have known := reachable.knows
  -- A circle that is reported is one that the definition involves.
  suffices (d.Faulty s.view document ∨ ∃ fragment chain, e = .cyclicFragment fragment chain)
      ∧ e.OfDocument by
    obtain ⟨faulty | ⟨fragment, chain, rfl⟩, origin⟩ := this
    · exact ⟨faulty, origin⟩
    · obtain ⟨circle, f, onCircle, involved⟩ := h.circle
      rw [sound.same] at circle onCircle involved
      exact ⟨.circle ⟨fragment, f, onCircle, involved, circle.transGen⟩, origin⟩
  rcases h.failed with ⟨o, rfl, failed⟩ | ⟨name, f, found, rfl, failed⟩
  · have library := (sound.run (Build.keeps_operation s.view s.document o)).library
    have failedFrom := Session.buildOperation_failed failed
    rcases failedFrom.faulty library known defined .self with ⟨faulty, origin⟩ | ⟨name, spreads, p, answer⟩
    · exact ⟨Or.inl faulty, origin⟩
    · rw [sound.same] at answer
      exact Build.fragmentNamed_blames library known answer (.undefined .self spreads)
        fun f found => .spread .self spreads found
  · have library := (sound.run (Build.fragmentNamed_spec s.view s.document [] name).1).library
    have answer := Session.buildFragment_failed failed
    rw [sound.same] at answer found
    refine Build.fragmentNamed_blames library known answer (fun unknown => ?_) fun g again => ?_
    · cases found.symm.trans unknown
    · cases found.symm.trans again
      exact .self

/-- Building a definition of a session's document fails exactly if it is faulty; and never for a type
that is not known, an entity that is not there or an entity of two types. -/
theorem builds_fail_for_their_faults (document : Document) (s : Session)
    (reachable : s.Reachable document) (d : ExecutableDefinition) (defined : document.Defines d)
    (r : Except BuildError BuiltSelections) (outcome : s.Outcome d r) :
    ((∃ e, r = .error e) ↔ d.Faulty s.view document)
      ∧ (∀ name, r ≠ .error (.unknownType name))
      ∧ (∀ index lookup, r ≠ .error (.unknownEntity index lookup))
      ∧ ∀ location held added, r ≠ .error (.rootTypeConflict location held added) := by
  refine ⟨⟨?fault, ?found⟩, ?type, ?entity, ?root⟩
  case fault =>
    rintro ⟨e, rfl⟩
    exact (outcome.faulty reachable defined).1
  case found =>
    intro faulty
    cases r with
    | error e => exact ⟨e, rfl⟩
    | ok b =>
        obtain ⟨built, id, rootName, library, walked⟩ := (outcome.builds reachable).walked reachable
        exact absurd faulty (walked.not_faulty library)
  case type =>
    rintro name rfl
    obtain ⟨-, h | h | h⟩ := outcome.faulty reachable defined <;> cases h
  case entity =>
    rintro index lookup rfl
    obtain ⟨-, h | h | h⟩ := outcome.faulty reachable defined <;> cases h
  case root =>
    rintro location held added rfl
    obtain ⟨-, h | h | h⟩ := outcome.faulty reachable defined <;> cases h

/-- `query { hero { who: name } hero { who: friend { name } } }` asks for one field that is a name and
a hero. -/
theorem one_field_is_no_name_and_hero :
    let name := { Heroes.nameField with label := some "who" }
    let friend := { Heroes.heroField "friend" [] [.field Heroes.nameField] with label := some "who" }
    let o := Heroes.query [.field (Heroes.heroField "hero" [] [.field name]),
      .field (Heroes.heroField "hero" [] [.field friend])]
    let document : Document := ⟨[o], []⟩
    ∃ s : Session, s.Reachable document ∧ document.Defines (.operation o.definition)
      ∧ s.Outcome (.operation o.definition)
        (.error (.fieldConflict "who" (.named "String") (.named "Hero")))
      ∧ (ExecutableDefinition.operation o.definition).Faulty s.view document := by
  intro name friend o document
  obtain ⟨s, reachable, outcome⟩ := Session.exists_outcome document Heroes.schema o
    (.fieldConflict "who" (.named "String") (.named "Hero")) (by decide +kernel)
  have defined : document.Defines (.operation o.definition) := ⟨o.text, List.mem_singleton.mpr rfl⟩
  have faulty := (builds_fail_for_their_faults document s reachable _ defined _ outcome).1.mp ⟨_, rfl⟩
  exact ⟨s, reachable, defined, outcome, faulty⟩

end SelectionGraph
