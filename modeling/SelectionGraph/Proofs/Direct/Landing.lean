import SelectionGraph.Proofs.Direct.Faithful
import SelectionGraph.Proofs.Direct.Shape

/-!
# Landing — the fields that selections put into each merged set

Fields of one definition land in one merged set when the same chain of response keys and of keys of
inline fragments leads to them.

* `LandsAll`       — a field lands in the set at a chain of keys;
* `Landed`         — some field of a key and a shape does;
* `Walking`        — what holds of direct selections and a draft during a walk;
* `Walked.lands`   — a successful walk adds to direct selections what the selections walked land.
-/

namespace SelectionGraph

variable {view : SchemaView} {document : Document} {built : List NamedFragment}

/-! ## Where fields land -/

/-- The type of a field that selects on an entity; none for one that does not. -/
def SchemaView.shape (view : SchemaView) (f : FieldSelection) : Option TypeRef :=
  match view.isComposite f.type.innerName with
  | .ok true => some f.type
  | _ => none

mutual

/-- A field that is the selection, or is selected inside it, lands in the set at a chain of keys. -/
def Selection.Lands (view : SchemaView) (type : Name) (chain : List SetKey) (g : FieldSelection) :
    Selection → Prop
  | .field ⟨label, definition, arguments, directives, selections⟩ =>
      let f : FieldSelection := ⟨label, definition, arguments, directives, selections⟩
      (∃ own, Inclusion.ofDirectives directives = .ok (some own))
        ∧ (chain = [] ∧ g = f
          ∨ view.isComposite f.type.innerName = .ok true
            ∧ ∃ rest, chain = .field f.responseKey :: rest
              ∧ LandsAll view f.type.innerName rest g selections)
  | .inlineFragment condition directives selections =>
      let inner := condition.getD type
      ∃ verdict conditions deferral, Verdict.ofDirectives directives = .ok verdict
        ∧ verdict.scope? = some conditions ∧ Deferral.ofDirectives directives = .ok deferral
        ∧ if inner == type && conditions.isNone && !deferral.isDeferred then
            LandsAll view type chain g selections
          else ∃ scope rest, chain = .scope scope deferral :: rest
            ∧ ((⟨inner, conditions⟩ : Scope) == scope) = true
            ∧ LandsAll view inner rest g selections
  | .fragmentSpread _ _ => False

/-- A field among selections on `type`, or inside one of them, lands in the set at a chain of keys.
Spreads put no fields into the sets of the definition they stand in. -/
def LandsAll (view : SchemaView) (type : Name) (chain : List SetKey) (g : FieldSelection) :
    List Selection → Prop
  | [] => False
  | s :: ss => s.Lands view type chain g ∨ LandsAll view type chain g ss

end

/-- A field of a response key and a shape lands in the set at a chain of keys. -/
def Landed (view : SchemaView) (type : Name) (ss : List Selection) (chain : List SetKey) (key : Name)
    (shape : Option TypeRef) : Prop :=
  ∃ g, LandsAll view type chain g ss ∧ g.responseKey = key ∧ view.shape g = shape

/-- Two fields of different shapes land in one set with one response key. -/
def ExecutableDefinition.Clashes (view : SchemaView) (d : ExecutableDefinition) : Prop :=
  ∃ chain f g, LandsAll view d.rootType chain f d.selections
    ∧ LandsAll view d.rootType chain g d.selections
    ∧ f.responseKey = g.responseKey ∧ view.shape f ≠ view.shape g

section Landed

variable {type : Name} {ss : List Selection} {chain : List SetKey} {key : Name}
  {shape : Option TypeRef}

theorem lands_field {f g : FieldSelection} : (Selection.field f).Lands view type chain g
    ↔ (∃ own, Inclusion.ofDirectives f.directives = .ok (some own))
      ∧ (chain = [] ∧ g = f
        ∨ view.isComposite f.type.innerName = .ok true
          ∧ ∃ rest, chain = .field f.responseKey :: rest
            ∧ LandsAll view f.type.innerName rest g f.selections) := by
  cases f
  rw [Selection.Lands]

theorem not_landed_nil : ¬ Landed view type [] chain key shape := by
  rintro ⟨g, lands, -⟩
  exact lands

theorem landed_cons {s : Selection} : Landed view type (s :: ss) chain key shape
    ↔ Landed view type [s] chain key shape ∨ Landed view type ss chain key shape := by
  simp [Landed, LandsAll, or_and_right, exists_or]

theorem landed_one {s : Selection} : Landed view type [s] chain key shape
    ↔ ∃ g, s.Lands view type chain g ∧ g.responseKey = key ∧ view.shape g = shape := by
  simp [Landed, LandsAll]

theorem not_landed_skipped {s : Selection} (skips : Inclusion.ofDirectives s.directives = .ok none) :
    ¬ Landed view type [s] chain key shape := by
  rw [landed_one]
  rintro ⟨g, lands, -⟩
  cases s with
  | field f =>
      obtain ⟨⟨own, included⟩, -⟩ := lands_field.mp lands
      cases skips.symm.trans included
  | inlineFragment condition directives selections =>
      rw [Selection.Lands] at lands
      obtain ⟨verdict, conditions, deferral, read, scope, -⟩ := lands
      have included := Inclusion.ofDirectives_of_verdict read
      rw [scope] at included
      cases skips.symm.trans included
  | fragmentSpread name directives =>
      rw [Selection.Lands] at lands
      exact lands

theorem not_landed_spread {name : Name} {directives : List Directive} :
    ¬ Landed view type [.fragmentSpread name directives] chain key shape := by
  rw [landed_one]
  rintro ⟨g, lands, -⟩
  rw [Selection.Lands] at lands
  exact lands

theorem SchemaView.shape_leaf {f : FieldSelection}
    (isLeaf : view.isComposite f.type.innerName = .ok false) : view.shape f = none := by
  rw [shape, isLeaf]

theorem SchemaView.shape_composite {f : FieldSelection}
    (isComposite : view.isComposite f.type.innerName = .ok true) : view.shape f = some f.type := by
  rw [shape, isComposite]

/-- A field of leaf type lands as what it is built as offers. -/
theorem landed_leaf {f : FieldSelection} {own : Inclusion}
    (included : Inclusion.ofDirectives f.directives = .ok (some own))
    (isLeaf : view.isComposite f.type.innerName = .ok false) :
    Landed view type [.field f] chain key shape ↔ (Field.scalar ⟨f, own⟩).Offers chain key shape := by
  rw [landed_one]
  simp only [lands_field, included, isLeaf, Except.ok.injEq, Bool.false_eq_true, false_and, or_false,
    Option.some.injEq, exists_eq', true_and]
  have shapeless := SchemaView.shape_leaf isLeaf
  rcases chain with _ | ⟨_ | _, rest⟩
  · simp [Field.Offers, Field.responseKey, ScalarField.responseKey, Field.shape, shapeless]
  · simp [Field.Offers]
  · simp [Field.Offers]

/-- A field of composite type lands as what it is built as offers. -/
theorem landed_entity {f : FieldSelection} {own : Inclusion}
    (included : Inclusion.ofDirectives f.directives = .ok (some own))
    (isComposite : view.isComposite f.type.innerName = .ok true) {id : FieldId} {entity : EntityId}
    {below : DirectSelections}
    (inside : ∀ chain key shape, below.Holds chain key shape
      ↔ Landed view f.type.innerName f.selections chain key shape) :
    Landed view type [.field f] chain key shape
      ↔ (f.build id own ⟨f.inside view entity, below⟩).Offers chain key shape := by
  rw [landed_one]
  simp only [lands_field, included, isComposite, Option.some.injEq, Except.ok.injEq, exists_eq',
    true_and]
  have shaped := SchemaView.shape_composite isComposite
  rcases chain with _ | ⟨k | _, rest⟩
  · simp [Field.Offers, FieldSelection.build, Field.responseKey, Field.shape, shaped]
  · simp only [Field.Offers, FieldSelection.build, Field.responseKey, Field.entity.injEq,
      exists_eq_left', inside, Landed, reduceCtorEq, false_and, false_or, List.cons.injEq,
      SetKey.field.injEq]
    constructor
    · rintro ⟨g, ⟨_, ⟨rfl, rfl⟩, lands⟩, offered⟩
      exact ⟨rfl, g, lands, offered⟩
    · rintro ⟨rfl, g, lands, offered⟩
      exact ⟨g, ⟨rest, ⟨rfl, rfl⟩, lands⟩, offered⟩
  · simp [Field.Offers]

section InlineFragment

variable {info : TypeInfo} {condition : Option Name} {directives : List Directive}
  {inner : List Selection} {verdict : Verdict} {conditions : Option Conjunction}
  {deferral : Deferral}

theorem lands_flat (read : Verdict.ofDirectives directives = .ok verdict)
    (scope : verdict.scope? = some conditions)
    (deferred : Deferral.ofDirectives directives = .ok deferral)
    (flattens : info.flattens condition conditions deferral = true) {g : FieldSelection} :
    (Selection.inlineFragment condition directives inner).Lands view info.parentType chain g
      ↔ LandsAll view info.parentType chain g inner := by
  rw [Selection.Lands]
  constructor
  · rintro ⟨verdict', conditions', deferral', read', scope', deferred', lands⟩
    cases read.symm.trans read'
    cases scope.symm.trans scope'
    cases deferred.symm.trans deferred'
    exact (if_pos flattens).mp lands
  · intro lands
    exact ⟨verdict, conditions, deferral, read, scope, deferred, (if_pos flattens).mpr lands⟩

theorem lands_inline (read : Verdict.ofDirectives directives = .ok verdict)
    (scope : verdict.scope? = some conditions)
    (deferred : Deferral.ofDirectives directives = .ok deferral)
    (opens : info.flattens condition conditions deferral = false) {g : FieldSelection} :
    (Selection.inlineFragment condition directives inner).Lands view info.parentType chain g
      ↔ ∃ scope rest, chain = .scope scope deferral :: rest
        ∧ ((⟨condition.getD info.parentType, conditions⟩ : Scope) == scope) = true
        ∧ LandsAll view (info.inside view condition conditions).parentType rest g inner := by
  have type : (info.inside view condition conditions).parentType = condition.getD info.parentType :=
    info.parentType_enter _ _
  have opened : ¬ (condition.getD info.parentType == info.parentType && conditions.isNone
      && !deferral.isDeferred) = true :=
    Bool.eq_false_iff.mp opens
  rw [Selection.Lands, type]
  constructor
  · rintro ⟨verdict', conditions', deferral', read', scope', deferred', lands⟩
    cases read.symm.trans read'
    cases scope.symm.trans scope'
    cases deferred.symm.trans deferred'
    exact (if_neg opened).mp lands
  · intro lands
    exact ⟨verdict, conditions, deferral, read, scope, deferred, (if_neg opened).mpr lands⟩

theorem landed_flat (read : Verdict.ofDirectives directives = .ok verdict)
    (scope : verdict.scope? = some conditions)
    (deferred : Deferral.ofDirectives directives = .ok deferral)
    (flattens : info.flattens condition conditions deferral = true) :
    Landed view info.parentType [.inlineFragment condition directives inner] chain key shape
      ↔ Landed view info.parentType inner chain key shape := by
  rw [landed_one]
  simp only [lands_flat read scope deferred flattens]
  rfl

/-- An inline fragment that opens a scope lands what it is built as offers. -/
theorem landed_inline (read : Verdict.ofDirectives directives = .ok verdict)
    (scope : verdict.scope? = some conditions)
    (deferred : Deferral.ofDirectives directives = .ok deferral)
    (opens : info.flattens condition conditions deferral = false) {below : DirectSelections}
    (inside : ∀ chain key shape, below.Holds chain key shape
      ↔ Landed view (info.inside view condition conditions).parentType inner chain key shape) :
    Landed view info.parentType [.inlineFragment condition directives inner] chain key shape
      ↔ (InlineSpread.mk ⟨info.inside view condition conditions, below⟩ deferral).Offers chain key
        shape := by
  have last : (info.inside view condition conditions).scopePath.last?
      = some ⟨condition.getD info.parentType, conditions⟩ :=
    info.last?_enter _ _
  rw [landed_one]
  simp only [lands_inline read scope deferred opens]
  rcases chain with _ | ⟨_ | ⟨scope', deferral'⟩, rest⟩
  · simp [InlineSpread.Offers]
  · simp [InlineSpread.Offers]
  · simp only [InlineSpread.Offers, InlineSpread.Opens, InlineSpread.typeInfo, last,
      Option.some_beq_some, inside, Landed, List.cons.injEq, SetKey.scope.injEq]
    constructor
    · rintro ⟨g, ⟨_, _, ⟨⟨rfl, rfl⟩, rfl⟩, same, lands⟩, key, shape⟩
      exact ⟨⟨same, rfl⟩, g, lands, key, shape⟩
    · rintro ⟨⟨same, rfl⟩, g, lands, key, shape⟩
      exact ⟨g, ⟨_, _, ⟨⟨rfl, rfl⟩, rfl⟩, same, lands⟩, key, shape⟩

end InlineFragment

end Landed

/-! ## During a walk -/

/-- An entity is at a path. -/
def EntityStorage.Locates (s : EntityStorage) (id : EntityId) (path : FieldPath) : Prop :=
  s.pathOf? id = some path

theorem EntityStorage.locates_functional (s : EntityStorage) (id : EntityId) (p q : FieldPath)
    (hp : s.Locates id p) (hq : s.Locates id q) : p = q :=
  Option.some.inj (hp.symm.trans hq)

/-- What holds of the direct selections of the set at `info`, whose entity is at a path, and of the
draft, during a walk. -/
structure Walking (built : List NamedFragment) (info : TypeInfo) (path : FieldPath)
    (direct : DirectSelections) (draft : Draft) : Prop where
  wellFormed : draft.entities.WellFormed
  located : draft.entities.Locates info.entity path
  refers : draft.Refers built
  tidy : direct.Tidy (TypeInfo.TypedIn draft.entities) (FragmentHandle.KnownIn draft.referenced)
  placed : direct.Placed draft.entities.Locates path

namespace Walking

variable {info : TypeInfo} {path : FieldPath} {direct direct' : DirectSelections}
  {draft draft' : Draft} {ss : List Selection}

theorem start (source : SourceDefinition) :
    Walking built (source.info view) .root .empty (.start source) where
  wellFormed := EntityStorage.start_wellFormed source
  located := (EntityStorage.start_wellFormed source).rootFirst
  refers := by simp [Draft.Refers, Draft.start]
  tidy := .nothing
  placed := .nothing

/-- The set of a composite field starts empty, one step further. -/
theorem inField (h : Walking built info path direct draft) {f : FieldSelection}
    {inclusion : Inclusion} {entity : EntityId} {entities : EntityStorage}
    (isComposite : view.isComposite f.type.innerName = .ok true)
    (selected : (draft.insertField info f inclusion).entities.entityForField info.entity
      ⟨f.responseKey, f.type⟩ = .ok (entity, entities)) :
    Walking built (f.inside view entity) (path.append ⟨f.responseKey, f.type⟩) .empty
        { draft.insertField info f inclusion with entities }
      ∧ draft.entities.Extends entities := by
  obtain ⟨grown, located⟩ := adds_entity h.wellFormed h.located isComposite inclusion selected
  exact ⟨⟨grown.wellFormed, located, h.refers, .nothing, .nothing⟩, grown.extended⟩

/-- Noting a deferral changes nothing of it. -/
theorem noteDeferred (h : Walking built info path direct draft) (deferral : Deferral) :
    Walking built info path direct (draft.noteDeferred deferral) :=
  ⟨h.wellFormed, h.located, h.refers, h.tidy, h.placed⟩

/-- The set of an inline fragment starts empty, on the same entity. -/
theorem inScope (h : Walking built info path direct draft) (condition : Option Name)
    (conditions : Option Conjunction) :
    Walking built (info.inside view condition conditions) path .empty draft :=
  ⟨h.wellFormed, h.located, h.refers, .nothing, .nothing⟩

section After

variable (fragments : ∀ g ∈ built, g.Inlined view document)
  (closed : ∀ g ∈ built, g.built.Refers built)

include fragments closed

/-- A walk keeps all of it but the places of what it adds. -/
theorem after (h : Walking built info path direct draft)
    (walked : Walked view built info direct draft ss direct' draft')
    (placed : direct'.Placed draft'.entities.Locates path) :
    Walking built info path direct' draft' := by
  have adds := walked.adds fragments h.wellFormed h.located
  have reads := walked.reads fragments closed h.wellFormed h.located h.refers h.tidy
  exact ⟨adds.wellFormed, reads.extended.paths _ _ h.located, reads.refers, reads.tidy, placed⟩

/-- What was placed before a walk is placed after it. -/
theorem placed_after (h : Walking built info path direct draft)
    (walked : Walked view built info direct draft ss direct' draft') {d : DirectSelections}
    {path' : FieldPath} (placed : d.Placed draft.entities.Locates path') :
    d.Placed draft'.entities.Locates path' := by
  have reads := walked.reads fragments closed h.wellFormed h.located h.refers h.tidy
  exact placed.imp reads.extended.paths

end After

end Walking

/-- A spread adds no fields. -/
theorem merged_spread {located : EntityId → FieldPath → Prop}
    (functional : ∀ id p q, located id p → located id q → p = q) {info : TypeInfo}
    {path : FieldPath} {direct direct₁ : DirectSelections} {spread : NamedSpread}
    (placed : direct.Placed located path)
    (added : Walk.addSpread info direct spread = .ok direct₁) :
    direct₁.Placed located path
      ∧ ∀ chain key shape, direct₁.Holds chain key shape ↔ direct.Holds chain key shape := by
  unfold Walk.addSpread at added
  split at added
  · cases added
    exact ⟨placed.addSpread spread, fun _ _ _ => DirectSelections.holds_addSpread spread⟩
  · have nothing : DirectSelections.empty.Placed located path := .nothing
    have merged := DirectSelections.merged_addInline functional placed (nothing.addSpread spread)
      added
    refine ⟨merged.placed, fun chain key shape => ?_⟩
    rw [merged.holds, DirectSelections.holds_one_inline]
    refine or_iff_left ?_
    rcases chain with _ | ⟨_ | _, rest⟩
    · exact id
    · exact id
    · rintro ⟨-, holds⟩
      exact DirectSelections.not_holds_empty ((DirectSelections.holds_addSpread spread).mp holds)

/-! ## A walk -/

/-- A walk adds to direct selections what the selections walked land. -/
structure Lands (view : SchemaView) (type : Name) (path : FieldPath) (ss : List Selection)
    (direct direct' : DirectSelections) (entities : EntityStorage) : Prop where
  placed : direct'.Placed entities.Locates path
  holds : ∀ chain key shape,
    direct'.Holds chain key shape
      ↔ direct.Holds chain key shape ∨ Landed view type ss chain key shape

/-- One selection, and then others. -/
theorem Lands.cons {type : Name} {path : FieldPath} {s : Selection} {ss : List Selection}
    {direct direct₁ direct' : DirectSelections} {entities entities' : EntityStorage}
    (first : Lands view type path [s] direct direct₁ entities)
    (rest : Lands view type path ss direct₁ direct' entities') :
    Lands view type path (s :: ss) direct direct' entities' where
  placed := rest.placed
  holds chain key shape := by
    rw [rest.holds, first.holds, or_assoc]
    exact or_congr_right landed_cons.symm

/-- What is added to nothing holds what the selections land, and nothing else. -/
theorem Lands.of_empty {type : Name} {path : FieldPath} {ss : List Selection}
    {below : DirectSelections} {entities : EntityStorage}
    (h : Lands view type path ss .empty below entities) (chain : List SetKey) (key : Name)
    (shape : Option TypeRef) : below.Holds chain key shape ↔ Landed view type ss chain key shape := by
  rw [h.holds]
  exact or_iff_right DirectSelections.not_holds_empty

section Walked

variable (fragments : ∀ g ∈ built, g.Inlined view document)
  (closed : ∀ g ∈ built, g.built.Refers built) {info : TypeInfo} {direct direct' : DirectSelections}
  {draft draft' : Draft} {ss : List Selection}

include fragments closed

/-- A walk adds to direct selections what the selections walked land.  The induction is on the walk;
what it does to the draft is known already. -/
theorem Walked.lands (h : Walked view built info direct draft ss direct' draft') :
    ∀ {path : FieldPath}, Walking built info path direct draft →
      Lands view info.parentType path ss direct direct' draft'.entities := by
  induction h with
  | nil =>
      intro path walking
      exact ⟨walking.placed, fun _ _ _ => (or_iff_left not_landed_nil).symm⟩
  | skipped skips _ ih =>
      intro path walking
      have rest := ih walking
      refine ⟨rest.placed, fun chain key shape => ?_⟩
      rw [rest.holds, landed_cons, or_iff_right (not_landed_skipped skips)]
  | @leaf info direct direct₁ direct' draft draft' f ss inclusion included isLeaf added _ ih =>
      intro path walking
      have one : Walked view built info direct draft [.field f] direct₁
          (draft.insertField info f inclusion) := .leaf included isLeaf added .nil
      have kept := walking.placed_after fragments closed one walking.placed
      have merged := DirectSelections.merged_addField
        (draft.insertField info f inclusion).entities.locates_functional kept (by simp) added
      have first : Lands view info.parentType path [.field f] direct direct₁
          (draft.insertField info f inclusion).entities := by
        refine ⟨merged.placed, fun chain key shape => ?_⟩
        rw [merged.holds, DirectSelections.holds_one_field, landed_leaf included isLeaf]
      exact first.cons (ih (walking.after fragments closed one merged.placed))
  | @entity info direct below direct₁ direct' draft draft₁ draft' entities entity f ss inclusion
      included isComposite selected inner added _ ihInner ih =>
      intro path walking
      obtain ⟨walkingInner, -⟩ := walking.inField isComposite selected
      have inside := ihInner walkingInner
      have one : Walked view built info direct draft [.field f] direct₁
          { draft₁ with nextField := draft₁.nextField + 1 } :=
        .entity included isComposite selected inner added .nil
      have kept := walking.placed_after fragments closed one walking.placed
      have located := (walkingInner.after fragments closed inner inside.placed).located
      have merged := DirectSelections.merged_addField draft₁.entities.locates_functional kept
        (by rintro _ ⟨⟩; exact ⟨located, inside.placed⟩) added
      have first : Lands view info.parentType path [.field f] direct direct₁ draft₁.entities := by
        refine ⟨merged.placed, fun chain key shape => ?_⟩
        rw [merged.holds, DirectSelections.holds_one_field,
          landed_entity included isComposite inside.of_empty]
      exact first.cons (ih (walking.after fragments closed one merged.placed))
  | @flat info direct direct₁ direct' draft draft₁ draft' condition directives inner ss verdict
      conditions deferral read scope deferred flattens within _ ihInside ih =>
      intro path walking
      have inside := ihInside (walking.noteDeferred deferral)
      have one : Walked view built info direct draft [.inlineFragment condition directives inner]
          direct₁ draft₁ := .flat read scope deferred flattens within .nil
      have first : Lands view info.parentType path [.inlineFragment condition directives inner] direct
          direct₁ draft₁.entities := by
        refine ⟨inside.placed, fun chain key shape => ?_⟩
        rw [inside.holds, landed_flat read scope deferred flattens]
      exact first.cons (ih (walking.after fragments closed one inside.placed))
  | @inline info direct below direct₁ direct' draft draft₁ draft' condition directives inner ss
      verdict conditions deferral read scope deferred opens within added _ ihInside ih =>
      intro path walking
      have inside := ihInside ((walking.noteDeferred deferral).inScope condition conditions)
      have one : Walked view built info direct draft [.inlineFragment condition directives inner]
          direct₁ draft₁ := .inline read scope deferred opens within added .nil
      have kept := walking.placed_after fragments closed one walking.placed
      have merged := DirectSelections.merged_addInline draft₁.entities.locates_functional kept
        inside.placed added
      have first : Lands view info.parentType path [.inlineFragment condition directives inner] direct
          direct₁ draft₁.entities := by
        refine ⟨merged.placed, fun chain key shape => ?_⟩
        rw [merged.holds, DirectSelections.holds_one_inline,
          landed_inline read scope deferred opens inside.of_empty]
      exact first.cons (ih (walking.after fragments closed one merged.placed))
  | @spread info direct direct₁ direct' draft draft' entities name directives ss inclusion deferral
      fragment included deferred found merged added _ ih =>
      intro path walking
      have one := Walked.spread included deferred found merged added .nil
      have kept := walking.placed_after fragments closed one walking.placed
      obtain ⟨placed, holds⟩ := merged_spread (EntityStorage.locates_functional _) kept added
      have first : Lands view info.parentType path [.fragmentSpread name directives] direct direct₁
          (entities.modifyTree info.entity fun t =>
            t.insertFragment info.scopePath fragment.name inclusion) := by
        refine ⟨placed, fun chain key shape => ?_⟩
        rw [holds, or_iff_left not_landed_spread]
      exact first.cons (ih (walking.after fragments closed one placed))

end Walked
end SelectionGraph
