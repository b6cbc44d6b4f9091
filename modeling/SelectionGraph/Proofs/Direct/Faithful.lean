import SelectionGraph.Proofs.Document.Selects
import SelectionGraph.Proofs.Entity.Inlining

/-!
# Faithful — direct selections include what the definition says at each address

* `Walked.reads`        — what a walk adds to direct selections, address by address;
* `BuiltSelections.Faithful` — what a definition was built as includes what its selections stand at;
* `Library.faithful`    — so for the fragments of a session, by induction on them.
-/

namespace SelectionGraph

variable {view : SchemaView} {document : Document} {σ : Assignment}

/-! ## What selections are read against -/

/-- The place of a composite field: its entity is at a path whose last step has the type selected
on. -/
def TypeInfo.TypedIn (s : EntityStorage) (info : TypeInfo) : Prop :=
  ∃ p c, s.pathOf? info.entity = some (FieldPath.append p c) ∧ info.rootType = c.type.innerName
    ∧ info.scopePath = .root

/-- A spread fragment is one of those that its definition refers to. -/
def FragmentHandle.KnownIn (referenced : List NamedFragment) (h : FragmentHandle) : Prop :=
  ∃ f ∈ referenced, f.handle = h

theorem TypeInfo.TypedIn.agree {s : EntityStorage} (i j : TypeInfo) (hi : i.TypedIn s)
    (hj : j.TypedIn s) (same : i.entity = j.entity) : i.rootType = j.rootType := by
  obtain ⟨p, c, at_, type, -⟩ := hi
  obtain ⟨q, d, at', type', -⟩ := hj
  rw [same, at'] at at_
  obtain ⟨-, rfl⟩ := FieldPath.append_inj (Option.some.inj at_)
  exact type.trans type'.symm

namespace DirectSelections

theorem Tidy.imp {typed typed' : TypeInfo → Prop} {known known' : FragmentHandle → Prop}
    (moreTyped : ∀ i, typed i → typed' i) (moreKnown : ∀ h, known h → known' h)
    {d : DirectSelections} (h : d.Tidy typed known) : d.Tidy typed' known' := by
  induction h with
  | intro fieldKeys scopeKeys spreadKeys fieldsTyped _ opened _ spreadsKnown ihFields ihScopes =>
      exact .intro fieldKeys scopeKeys spreadKeys (fun e mem => moreTyped _ (fieldsTyped e mem))
        ihFields opened ihScopes fun s mem => moreKnown _ (spreadsKnown s mem)

theorem includes_one_field (f : Field) (address : List Turn) :
    (mk [f] [] []).Includes σ address
      ↔ ∃ rest, address = .field f.responseKey f.typeBelow :: rest
        ∧ (rest = [] ∧ f.inclusion.holds σ = true
          ∨ ∃ e, f = .entity e ∧ e.selectionSet.direct.Includes σ rest) := by
  rcases address with _ | ⟨⟨key, type⟩ | _ | _, rest⟩
  · simp [Includes]
  · simp only [Includes, List.mem_singleton, exists_eq_left, List.cons.injEq, Turn.field.injEq]
    constructor
    · rintro ⟨rfl, rfl, takes⟩
      exact ⟨rest, ⟨⟨rfl, rfl⟩, rfl⟩, takes⟩
    · rintro ⟨_, ⟨⟨rfl, rfl⟩, rfl⟩, takes⟩
      exact ⟨rfl, rfl, takes⟩
  · simp [Includes]
  · simp [Includes]

theorem includes_one_inline (s : InlineSpread) (address : List Turn) :
    (mk [] [s] []).Includes σ address
      ↔ ∃ scope rest, address = .scope scope s.deferral :: rest
        ∧ (s.typeInfo.scopePath.last? == some scope) = true
        ∧ (rest = [] ∧ scope.holds σ = true ∨ s.selectionSet.direct.Includes σ rest) := by
  rcases address with _ | ⟨_ | ⟨scope, deferral⟩ | _, rest⟩
  · simp [Includes]
  · simp [Includes]
  · simp only [Includes, List.mem_singleton, exists_eq_left, List.cons.injEq, Turn.scope.injEq]
    constructor
    · rintro ⟨⟨opens, rfl⟩, takes⟩
      exact ⟨scope, rest, ⟨⟨rfl, rfl⟩, rfl⟩, opens, takes⟩
    · rintro ⟨_, _, ⟨⟨rfl, rfl⟩, rfl⟩, opens, takes⟩
      exact ⟨⟨opens, rfl⟩, takes⟩
  · simp [Includes]

theorem includes_one_spread (s : NamedSpread) (address : List Turn) :
    (mk [] [] [s]).Includes σ address
      ↔ address = [.spread s.fragment.name s.deferral] ∧ s.inclusion.holds σ = true := by
  rcases address with _ | ⟨_ | _ | ⟨name, deferral⟩, rest⟩
  · simp [Includes]
  · simp [Includes]
  · simp [Includes]
  · simp only [Includes, List.mem_singleton, exists_eq_left, NamedSpread.key, Prod.mk.injEq,
      List.cons.injEq, Turn.spread.injEq]
    constructor
    · rintro ⟨⟨rfl, rfl⟩, rfl, holds⟩
      exact ⟨⟨⟨rfl, rfl⟩, rfl⟩, holds⟩
    · rintro ⟨⟨⟨rfl, rfl⟩, rfl⟩, holds⟩
      exact ⟨⟨rfl, rfl⟩, rfl, holds⟩

end DirectSelections

/-! ## References -/

/-- The fragments that a draft refers to are those of their names. -/
def Draft.Refers (built : List NamedFragment) (draft : Draft) : Prop :=
  ∀ r ∈ draft.referenced, NamedFragment.find? built r.name = some r

/-- The fragments that a definition refers to are those of their names. -/
def BuiltSelections.Refers (built : List NamedFragment) (b : BuiltSelections) : Prop :=
  ∀ r ∈ b.referenced, NamedFragment.find? built r.name = some r

/-- Referring to further fragments keeps those referred to, and adds them all. -/
theorem mem_addReferences {built : List NamedFragment} {refs fs : List NamedFragment}
    (refers : ∀ r ∈ refs, NamedFragment.find? built r.name = some r)
    (new : ∀ f ∈ fs, NamedFragment.find? built f.name = some f) :
    ∀ r, r ∈ fs.foldl Walk.addReference refs ↔ r ∈ refs ∨ r ∈ fs := by
  induction fs generalizing refs with
  | nil => simp
  | cons f fs ih =>
      obtain ⟨here, later⟩ := List.forall_mem_cons.mp new
      -- A fragment that has the name of one referred to is that one.
      have one : ∀ r, r ∈ Walk.addReference refs f ↔ r ∈ refs ∨ r = f := by
        intro r
        unfold Walk.addReference
        split
        · rename_i held
          obtain ⟨g, mem, same⟩ := List.any_eq_true.mp held
          have found := refers g mem
          rw [beq_iff_eq.mp same, here] at found
          refine (or_iff_left_of_imp ?_).symm
          rintro rfl
          exact Option.some.inj found ▸ mem
        · simp
      intro r
      rw [List.foldl_cons, ih ?_ later, one, List.mem_cons, or_assoc]
      intro r mem
      rcases (one r).mp mem with held | rfl
      · exact refers r held
      · exact here

/-- What a spread adds to the references of a draft: its fragment, and those the fragment refers
to. -/
theorem Draft.mem_reference {built : List NamedFragment} {draft : Draft}
    (refers : draft.Refers built) {fragment : NamedFragment}
    (found : NamedFragment.find? built fragment.name = some fragment)
    (closed : fragment.built.Refers built) (deferral : Deferral) :
    (draft.reference fragment deferral).Refers built
      ∧ (∀ r ∈ draft.referenced, r ∈ (draft.reference fragment deferral).referenced)
      ∧ fragment.handle.KnownIn (draft.reference fragment deferral).referenced := by
  have new : ∀ r ∈ fragment :: fragment.built.referenced,
      NamedFragment.find? built r.name = some r := List.forall_mem_cons.mpr ⟨found, closed⟩
  have references : ∀ r, r ∈ (draft.reference fragment deferral).referenced
      ↔ r ∈ draft.referenced ∨ r ∈ fragment :: fragment.built.referenced :=
    mem_addReferences refers new
  refine ⟨fun r held => ?_, fun r held => (references r).mpr (Or.inl held), ?_⟩
  · rcases (references r).mp held with before | added
    · exact refers r before
    · exact new r added
  · exact ⟨fragment, (references fragment).mpr (Or.inr (List.mem_cons_self ..)), rfl⟩

/-! ## A walk -/

/-- A walk adds to direct selections what the selections walked stand at. -/
structure Reads (view : SchemaView) (document : Document) (built : List NamedFragment) (type : Name)
    (ss : List Selection) (direct : DirectSelections) (draft : Draft) (direct' : DirectSelections)
    (draft' : Draft) : Prop where
  refers : draft'.Refers built
  extended : draft.entities.Extends draft'.entities
  referenced : ∀ r ∈ draft.referenced, r ∈ draft'.referenced
  tidy : direct'.Tidy (TypeInfo.TypedIn draft'.entities) (FragmentHandle.KnownIn draft'.referenced)
  includes : ∀ σ address, direct'.Includes σ address
    ↔ direct.Includes σ address ∨ StandsAll view document σ type address ss

theorem TypeInfo.TypedIn.mono {s s' : EntityStorage} (extended : s.Extends s') (i : TypeInfo)
    (h : i.TypedIn s) : i.TypedIn s' := by
  obtain ⟨p, c, at_, rest⟩ := h
  exact ⟨p, c, extended.paths _ _ at_, rest⟩

theorem FragmentHandle.KnownIn.mono {refs refs' : List NamedFragment} (more : ∀ r ∈ refs, r ∈ refs')
    (h : FragmentHandle) (known : h.KnownIn refs) : h.KnownIn refs' := by
  obtain ⟨f, mem, same⟩ := known
  exact ⟨f, more f mem, same⟩

namespace Reads

variable {built : List NamedFragment} {type : Name} {s : Selection} {ss : List Selection}
  {direct direct₁ direct' : DirectSelections} {draft draft₁ draft' : Draft}

/-- One selection, and then others. -/
theorem cons (rest : Reads view document built type ss direct₁ draft₁ direct' draft')
    (extended : draft.entities.Extends draft₁.entities)
    (referenced : ∀ r ∈ draft.referenced, r ∈ draft₁.referenced)
    (first : ∀ σ address, direct₁.Includes σ address
      ↔ direct.Includes σ address ∨ s.Stands view document σ type address) :
    Reads view document built type (s :: ss) direct draft direct' draft' where
  refers := rest.refers
  extended := extended.trans rest.extended
  referenced r mem := rest.referenced r (referenced r mem)
  tidy := rest.tidy
  includes σ address := by rw [rest.includes, first, StandsAll, or_assoc]

end Reads

theorem not_stands_skipped {type : Name} {address : List Turn} {s : Selection}
    (skips : Inclusion.ofDirectives s.directives = .ok none) :
    ¬ s.Stands view document σ type address := by
  cases s with
  | field f =>
      rw [stands_field]
      rintro ⟨⟨own, read⟩, -⟩
      cases skips.symm.trans read
  | inlineFragment condition directives selections =>
      rw [Selection.Stands]
      rintro ⟨verdict, conditions, read, scope, -⟩
      have included := Inclusion.ofDirectives_of_verdict read
      rw [scope] at included
      cases skips.symm.trans included
  | fragmentSpread name directives =>
      rw [Selection.Stands]
      rintro ⟨⟨own, read⟩, -⟩
      cases skips.symm.trans read

section OneSelection

variable {type : Name} {address : List Turn}

/-- A field of leaf type, read from what it was built as. -/
theorem stands_leaf {f : FieldSelection} {own : Inclusion}
    (included : Inclusion.ofDirectives f.directives = .ok (some own))
    (isLeaf : view.isComposite f.type.innerName = .ok false) :
    (Selection.field f).Stands view document σ type address
      ↔ (DirectSelections.mk [.scalar ⟨f, own⟩] [] []).Includes σ address := by
  have none : view.typeBelow f.type = none := by rw [SchemaView.typeBelow, isLeaf]
  rw [stands_field, DirectSelections.includes_one_field, none]
  simp [included, Field.responseKey, ScalarField.responseKey, Field.typeBelow, Field.inclusion,
    Inclusion.holds_ofDirectives included]

/-- A field of composite type, read from what it was built as. -/
theorem stands_entity {f : FieldSelection} {own : Inclusion}
    (included : Inclusion.ofDirectives f.directives = .ok (some own))
    (isComposite : view.isComposite f.type.innerName = .ok true) {id : FieldId} {entity : EntityId}
    {below : DirectSelections}
    (inside : ∀ address, below.Includes σ address
      ↔ StandsAll view document σ f.type.innerName address f.selections) :
    (Selection.field f).Stands view document σ type address
      ↔ (DirectSelections.mk [f.build id own ⟨f.inside view entity, below⟩] [] []).Includes σ
        address := by
  rw [stands_field, DirectSelections.includes_one_field, SchemaView.typeBelow_eq isComposite]
  simp [included, FieldSelection.build, FieldSelection.inside, Field.responseKey, Field.typeBelow,
    Field.inclusion, Inclusion.holds_ofDirectives included, inside]

section InlineFragment

variable {info : TypeInfo} {condition : Option Name} {directives : List Directive}
  {inner : List Selection} {verdict : Verdict} {conditions : Option Conjunction}
  {deferral : Deferral}

/-- An inline fragment that is part of the set it stands in. -/
theorem stands_flat (read : Verdict.ofDirectives directives = .ok verdict)
    (scope : verdict.scope? = some conditions)
    (deferred : Deferral.ofDirectives directives = .ok deferral)
    (flattens : info.flattens condition conditions deferral = true) :
    (Selection.inlineFragment condition directives inner).Stands view document σ info.parentType
        address
      ↔ StandsAll view document σ info.parentType address inner := by
  rw [Selection.Stands, Deferral.said_eq deferred]
  constructor
  · rintro ⟨verdict', conditions', read', scope', stands⟩
    cases read.symm.trans read'
    cases scope.symm.trans scope'
    exact (if_pos flattens).mp stands
  · intro stands
    exact ⟨verdict, conditions, read, scope, (if_pos flattens).mpr stands⟩

/-- An inline fragment that opens a scope, read from what it was built as. -/
theorem stands_inline (read : Verdict.ofDirectives directives = .ok verdict)
    (scope : verdict.scope? = some conditions)
    (deferred : Deferral.ofDirectives directives = .ok deferral)
    (opens : info.flattens condition conditions deferral = false) {below : DirectSelections}
    (inside : ∀ address, below.Includes σ address
      ↔ StandsAll view document σ (info.inside view condition conditions).parentType address inner) :
    (Selection.inlineFragment condition directives inner).Stands view document σ info.parentType
        address
      ↔ (DirectSelections.mk [] [⟨⟨info.inside view condition conditions, below⟩, deferral⟩]
        []).Includes σ address := by
  have type : (info.inside view condition conditions).parentType = condition.getD info.parentType :=
    info.parentType_enter _ _
  have last : (info.inside view condition conditions).scopePath.last?
      = some ⟨condition.getD info.parentType, conditions⟩ :=
    info.last?_enter _ _
  have opened : ¬ (condition.getD info.parentType == info.parentType && conditions.isNone
      && !deferral.isDeferred) = true :=
    Bool.eq_false_iff.mp opens
  rw [Selection.Stands, DirectSelections.includes_one_inline, Deferral.said_eq deferred]
  simp only [InlineSpread.typeInfo, last, Option.some_beq_some, inside, type]
  constructor
  · rintro ⟨verdict', conditions', read', scope', stands⟩
    cases read.symm.trans read'
    cases scope.symm.trans scope'
    exact (if_neg opened).mp stands
  · intro stands
    exact ⟨verdict, conditions, read, scope, (if_neg opened).mpr stands⟩

end InlineFragment

/-- A spread stands by itself, or in the scope that the type condition of its fragment opens. -/
theorem stands_spread {name : Name} {directives : List Directive} {own : Inclusion}
    {deferral : Deferral} {f : Sourced FragmentDefinition}
    (included : Inclusion.ofDirectives directives = .ok (some own))
    (deferred : Deferral.ofDirectives directives = .ok deferral)
    (defined : document.fragment? name = some f) :
    (Selection.fragmentSpread name directives).Stands view document σ type address
      ↔ if f.definition.typeCondition == type then
          address = [.spread name deferral] ∧ own.holds σ = true
        else ∃ scope rest, address = .scope scope .immediate :: rest
          ∧ ((⟨f.definition.typeCondition, none⟩ : Scope) == scope) = true
          ∧ (rest = [] ∧ scope.holds σ = true
            ∨ rest = [.spread name deferral] ∧ own.holds σ = true) := by
  rw [Selection.Stands, Deferral.said_eq deferred]
  simp [included, defined, Inclusion.holds_ofDirectives included]

/-- A spread, read from what it was built as: by itself, or in the scope that its type condition
opens. -/
theorem merges_spread {typed : TypeInfo → Prop} {known : FragmentHandle → Prop}
    (agree : ∀ i j, typed i → typed j → i.entity = j.entity → i.rootType = j.rootType)
    {info : TypeInfo} {direct direct₁ : DirectSelections} (h : direct.Tidy typed known)
    {name : Name} {directives : List Directive} {own : Inclusion} {deferral : Deferral}
    {f : Sourced FragmentDefinition} {handle : FragmentHandle}
    (included : Inclusion.ofDirectives directives = .ok (some own))
    (deferred : Deferral.ofDirectives directives = .ok deferral)
    (defined : document.fragment? name = some f) (named : handle.name = name)
    (typeCondition : handle.typeCondition = f.definition.typeCondition) (isKnown : known handle)
    (added : Walk.addSpread info direct
      ⟨handle, Walk.spreadSite view info f.definition.typeCondition, own, deferral⟩ = .ok direct₁) :
    direct₁.Tidy typed known ∧ ∀ σ address, direct₁.Includes σ address
      ↔ direct.Includes σ address
        ∨ (Selection.fragmentSpread name directives).Stands view document σ info.parentType
          address := by
  unfold Walk.addSpread Walk.spreadScope? at added
  unfold Walk.spreadSite Walk.spreadScope? at added
  rw [typeCondition] at added
  by_cases same : (f.definition.typeCondition == info.parentType) = true
  · -- The spread stands in the set itself.
    simp only [same, if_true] at added
    cases added
    have merges := DirectSelections.merges_addSpread h
      (s := ⟨handle, info, own, deferral⟩) isKnown
    refine ⟨merges.tidy, fun σ address => ?_⟩
    rw [merges.includes, DirectSelections.includes_one_spread,
      stands_spread included deferred defined, if_pos same, named]
  · -- The spread stands alone in an inline fragment, which is merged like any other.
    simp only [same, Bool.false_eq_true, if_false] at added
    have nothing : DirectSelections.empty.Tidy typed known := .nothing
    have below := DirectSelections.merges_addSpread nothing (s := ⟨handle, info.enter
      ⟨f.definition.typeCondition, none⟩ (view.isRootFieldType f.definition.typeCondition), own,
      deferral⟩) isKnown
    have merges := DirectSelections.merges_addInline agree h
      (by simp [InlineSpread.typeInfo, TypeInfo.last?_enter]) below.tidy added
    refine ⟨merges.tidy, fun σ address => ?_⟩
    rw [merges.includes, DirectSelections.includes_one_inline,
      stands_spread included deferred defined, if_neg same]
    simp only [InlineSpread.typeInfo, TypeInfo.last?_enter, Option.some_beq_some, below.includes,
      DirectSelections.includes_one_spread, named,
      or_iff_right (DirectSelections.not_includes_empty _)]

end OneSelection

/-- What a walk adds to direct selections, address by address.  The induction is on the walk; what it
does to the entities is known already. -/
theorem Walked.reads {built : List NamedFragment}
    (fragments : ∀ g ∈ built, g.Inlined view document)
    (closed : ∀ g ∈ built, g.built.Refers built)
    {info : TypeInfo} {direct direct' : DirectSelections} {draft draft' : Draft}
    {ss : List Selection} (h : Walked view built info direct draft ss direct' draft') :
    ∀ {path : FieldPath}, draft.entities.WellFormed → draft.entities.pathOf? info.entity = some path →
      draft.Refers built → direct.Tidy (TypeInfo.TypedIn draft.entities)
        (FragmentHandle.KnownIn draft.referenced) →
      Reads view document built info.parentType ss direct draft direct' draft' := by
  induction h with
  | nil =>
      intro path wf at_ refers tidy
      exact ⟨refers, .refl _, fun _ => id, tidy, by simp [StandsAll]⟩
  | skipped skips _ ih =>
      intro path wf at_ refers tidy
      refine (ih wf at_ refers tidy).cons (.refl _) (fun _ => id) fun σ address => ?_
      exact (or_iff_left (not_stands_skipped skips)).symm
  | @leaf info direct direct₁ direct' draft draft' f ss inclusion included isLeaf added _ ih =>
      intro path wf at_ refers tidy
      have grown := adds_leaf wf at_ isLeaf inclusion
      have kept := tidy.imp (TypeInfo.TypedIn.mono grown.extended) fun _ => id
      have first := DirectSelections.merges_addField TypeInfo.TypedIn.agree kept (by simp) added
      have rest := ih grown.wellFormed (grown.extended.paths _ _ at_) refers first.tidy
      refine rest.cons grown.extended (fun _ => id) fun σ address => ?_
      rw [first.includes, stands_leaf included isLeaf]
  | @entity info direct below direct₁ direct' draft draft₁ draft' entities entity f ss inclusion
      included isComposite selected inner added _ ihInner ih =>
      intro path wf at_ refers tidy
      -- The set of the field starts empty and is put into `direct` when it is complete.
      obtain ⟨grown, at'⟩ := adds_entity wf at_ isComposite inclusion selected
      have inside := ihInner grown.wellFormed at' refers .nothing
      have extended := grown.extended.trans inside.extended
      have kept := tidy.imp (TypeInfo.TypedIn.mono extended)
        (FragmentHandle.KnownIn.mono inside.referenced)
      have fits : ∀ e, f.build draft₁.nextId inclusion ⟨f.inside view entity, below⟩ = .entity e →
          e.selectionSet.typeInfo.TypedIn draft₁.entities ∧ e.selectionSet.direct.Tidy
            (TypeInfo.TypedIn draft₁.entities) (FragmentHandle.KnownIn draft₁.referenced) := by
        rintro _ ⟨⟩
        exact ⟨⟨path, _, inside.extended.paths _ _ at', rfl, rfl⟩, inside.tidy⟩
      have first := DirectSelections.merges_addField TypeInfo.TypedIn.agree kept fits added
      have rest := ih (inner.adds fragments grown.wellFormed at').wellFormed
        (extended.paths _ _ at_) inside.refers first.tidy
      refine rest.cons extended inside.referenced fun σ address => ?_
      rw [first.includes, stands_entity included isComposite]
      intro address
      rw [inside.includes]
      exact or_iff_right (DirectSelections.not_includes_empty address)
  | @flat info direct direct₁ direct' draft draft₁ draft' condition directives inner ss verdict
      conditions deferral read scope deferred flattens within _ ihInside ih =>
      intro path wf at_ refers tidy
      have inside := ihInside wf at_ refers tidy
      have rest := ih (within.adds fragments wf at_).wellFormed (inside.extended.paths _ _ at_)
        inside.refers inside.tidy
      refine rest.cons inside.extended inside.referenced fun σ address => ?_
      rw [inside.includes, stands_flat read scope deferred flattens]
  | @inline info direct below direct₁ direct' draft draft₁ draft' condition directives inner ss
      verdict conditions deferral read scope deferred opens within added _ ihInside ih =>
      intro path wf at_ refers tidy
      have inside := ihInside wf at_ refers .nothing
      have kept := tidy.imp (TypeInfo.TypedIn.mono inside.extended)
        (FragmentHandle.KnownIn.mono inside.referenced)
      have last : (info.inside view condition conditions).scopePath.last?.isSome = true := by
        rw [TypeInfo.inside, TypeInfo.last?_enter]
        rfl
      have first := DirectSelections.merges_addInline TypeInfo.TypedIn.agree kept
        (s := ⟨⟨info.inside view condition conditions, below⟩, deferral⟩) last inside.tidy added
      have rest := ih (within.adds fragments wf at_).wellFormed (inside.extended.paths _ _ at_)
        inside.refers first.tidy
      refine rest.cons inside.extended inside.referenced fun σ address => ?_
      rw [first.includes, stands_inline read scope deferred opens]
      intro address
      rw [inside.includes]
      exact or_iff_right (DirectSelections.not_includes_empty address)
  | @spread info direct direct₁ direct' draft draft' entities name directives ss inclusion deferral
      fragment included deferred found merged added _ ih =>
      intro path wf at_ refers tidy
      obtain ⟨mem, named⟩ := NamedFragment.mem_of_find? found
      obtain ⟨⟨d, defined, same⟩, -⟩ := fragments fragment mem
      rw [named] at defined
      -- For the entities this one spread is a walk of its own.
      have grown := (Walked.spread included deferred found merged added .nil).adds fragments wf at_
      obtain ⟨refersAll, referenced, known⟩ := Draft.mem_reference refers (named.symm ▸ found)
        (closed fragment mem) deferral
      have kept := tidy.imp (TypeInfo.TypedIn.mono grown.extended)
        (FragmentHandle.KnownIn.mono referenced)
      rw [← same] at added
      obtain ⟨tidy₁, includes⟩ := merges_spread TypeInfo.TypedIn.agree kept included deferred defined
        named (congrArg FragmentDefinition.typeCondition same.symm) known added
      have rest := ih grown.wellFormed (grown.extended.paths _ _ at_) refersAll tidy₁
      exact rest.cons grown.extended referenced includes

/-! ## Definitions -/

/-- What a definition was built as includes at each address what its selections stand at. -/
structure BuiltSelections.Faithful (view : SchemaView) (document : Document) (type : Name)
    (ss : List Selection) (b : BuiltSelections) : Prop where
  parentType : b.rootField.selectionSet.typeInfo.parentType = type
  tidy : b.rootField.selectionSet.direct.Tidy (TypeInfo.TypedIn b.entities)
    (FragmentHandle.KnownIn b.referenced)
  includes : ∀ σ address, b.rootField.selectionSet.direct.Includes σ address
    ↔ StandsAll view document σ type address ss

theorem WalkedFrom.faithful {built : List NamedFragment}
    (fragments : ∀ g ∈ built, g.Inlined view document)
    (closed : ∀ g ∈ built, g.built.Refers built) {source : SourceDefinition} {rootName : Name}
    {b : BuiltSelections} (h : WalkedFrom view built source rootName b) :
    b.Faithful view document source.definition.rootType source.definition.selections
      ∧ b.Refers built := by
  obtain ⟨direct, draft, walked, rfl⟩ := h
  have start := EntityStorage.start_wellFormed source
  have refers : (Draft.start source).Refers built := by simp [Draft.Refers, Draft.start]
  have reads := walked.reads fragments closed start start.rootFirst refers .nothing
  have root : (source.info view).parentType = source.definition.rootType := source.rootType_eq
  rw [root] at reads
  refine ⟨⟨root, reads.tidy, fun σ address => (reads.includes σ address).trans ?_⟩, reads.refers⟩
  exact or_iff_right (DirectSelections.not_includes_empty address)

/-- The fragments that a session's fragments refer to are among those before them. -/
theorem Library.closed {built : List NamedFragment} (h : Library view document built) :
    ∀ g ∈ built, g.built.Refers built := by
  induction h with
  | nil => simp
  | @snoc built f name text id b earlier new defined walked ih =>
      -- A fragment is looked up among those built by then; later ones do not hide it.
      have more : built <+: built ++ [⟨f.definition, b, text⟩] := List.prefix_append _ _
      simp only [List.forall_mem_append, List.forall_mem_singleton]
      constructor
      · exact fun g mem r held => NamedFragment.find?_mono more (ih g mem r held)
      · intro r held
        exact NamedFragment.find?_mono more ((walked.faithful earlier.inlined ih).2 r held)

theorem Library.faithful {built : List NamedFragment} (h : Library view document built) :
    ∀ g ∈ built,
      g.built.Faithful view document g.definition.typeCondition g.definition.selections := by
  refine h.induction ?_
  intro built f name text id b library _ _ walked
  exact (walked.faithful library.inlined library.closed).1

end SelectionGraph
