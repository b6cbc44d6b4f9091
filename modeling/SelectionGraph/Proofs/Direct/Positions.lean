import SelectionGraph.Proofs.Direct.Spreads

/-!
# Positions — selection sets note where they are reached

Of selections that are merged, the first notes where they all sit.  This is right, since whatever comes
to have one key sits in one place.

* `DirectSelections.Noted`   — sets, inline fragments and spreads note the places where they stand, at
  any depth;
* `Merging.noted`            — putting selections together keeps this;
* `Walked.noted`             — and so does a walk, with the entities that it ends with;
* `SelectionSet.ReachedBy`    — a set, with the fields and the scopes on the way to it;
* `selection_sets_note_their_positions` — a set is on the entity at the end of the fields, in the scope
  of the inline fragments entered since.
-/

namespace SelectionGraph

variable {view : SchemaView} {document : Document}

/-! ## Places -/

namespace TypeInfo

variable {i j : TypeInfo}

theorem beq_iff : (i == j) = true ↔ i.entity = j.entity ∧ i.rootType = j.rootType
    ∧ (i.scopePath == j.scopePath) = true ∧ i.isRootFieldType = j.isRootFieldType := by
  change (i.entity == j.entity && (i.rootType == j.rootType && (i.scopePath == j.scopePath
    && i.isRootFieldType == j.isRootFieldType))) = true ↔ _
  simp only [Bool.and_eq_true, beq_iff_eq]

instance : EquivBEq TypeInfo where
  rfl := beq_iff.mpr ⟨rfl, rfl, BEq.rfl, rfl⟩
  symm h := by
    obtain ⟨entity, rootType, scope, isRoot⟩ := beq_iff.mp h
    exact beq_iff.mpr ⟨entity.symm, rootType.symm, BEq.symm scope, isRoot.symm⟩
  trans h h' := by
    obtain ⟨entity, rootType, scope, isRoot⟩ := beq_iff.mp h
    obtain ⟨entity', rootType', scope', isRoot'⟩ := beq_iff.mp h'
    exact beq_iff.mpr ⟨entity.trans entity', rootType.trans rootType', BEq.trans scope scope',
      isRoot.trans isRoot'⟩

theorem parentType_congr (same : (i == j) = true) : i.parentType = j.parentType := by
  obtain ⟨-, rootType, scope, -⟩ := beq_iff.mp same
  rw [parentType, parentType, rootType, ScopePath.typeOn_congr scope]

theorem enter_congr (same : (i == j) = true) {s t : Scope} (scopes : (s == t) = true) (b : Bool) :
    (i.enter s b == j.enter t b) = true := by
  obtain ⟨entity, rootType, scope, -⟩ := beq_iff.mp same
  have last : (ScopePath.mk [s] == ScopePath.mk [t]) = true := by
    change ([s] == [t]) = true
    simpa using scopes
  exact beq_iff.mpr ⟨entity, rootType, ScopePath.concat_congr scope last, rfl⟩

/-- The place of a scope that is entered from a place. -/
def inScope (info : TypeInfo) (view : SchemaView) (scope : Scope) : TypeInfo :=
  info.enter scope (view.isRootFieldType scope.typeCondition)

theorem parentType_inScope (info : TypeInfo) (view : SchemaView) (scope : Scope) :
    (info.inScope view scope).parentType = scope.typeCondition :=
  info.parentType_enter _ _

theorem inScope_congr (same : (i == j) = true) {s t : Scope} (scopes : (s == t) = true) :
    (i.inScope view s == j.inScope view t) = true := by
  rw [inScope, inScope, (Scope.beq_iff.mp scopes).1]
  exact enter_congr same scopes _

end TypeInfo

/-- A field that selects on an entity stands at a place: its entity is one step from the one there,
and its set is on that entity's own type, which is the type of the field. -/
structure EntityField.StandsAt (f : EntityField) (view : SchemaView) (s : EntityStorage)
    (info : TypeInfo) : Prop where
  step : ∃ path, s.pathOf? info.entity = some path
    ∧ s.pathOf? f.entity = some (path.append ⟨f.responseKey, f.type⟩)
  own : f.selectionSet.typeInfo
    = ⟨f.entity, f.type.innerName, .root, view.isRootFieldType f.type.innerName⟩

/-- An inline fragment stands at a place: its set is in the scope that it enters from there. -/
def InlineSpread.StandsAt (f : InlineSpread) (view : SchemaView) (info : TypeInfo) : Prop :=
  ∃ scope, f.typeInfo.scopePath.last? = some scope
    ∧ (f.typeInfo == info.inScope view scope) = true

/-- A spread stands at a place: it notes this, and its fragment is on the type there. -/
structure NamedSpread.StandsAt (f : NamedSpread) (info : TypeInfo) : Prop where
  here : (f.typeInfo == info) = true
  typed : f.fragment.typeCondition = info.parentType

/-- Fields of one key that select on one entity have one type, and their sets one place. -/
theorem EntityField.StandsAt.same {s : EntityStorage} {info : TypeInfo} {f g : EntityField}
    (hf : f.StandsAt view s info) (hg : g.StandsAt view s info) (entity : f.entity = g.entity) :
    f.selectionSet.typeInfo = g.selectionSet.typeInfo := by
  obtain ⟨p, -, stepF⟩ := hf.step
  obtain ⟨q, -, stepG⟩ := hg.step
  rw [entity, stepG] at stepF
  have type : g.type = f.type :=
    congrArg PathComponent.type (FieldPath.append_inj (Option.some.inj stepF)).2
  rw [hf.own, hg.own, entity, type]

theorem EntityField.StandsAt.congr {s : EntityStorage} {i j : TypeInfo} {f : EntityField}
    (h : f.StandsAt view s i) (same : (i == j) = true) : f.StandsAt view s j :=
  ⟨(TypeInfo.beq_iff.mp same).1 ▸ h.step, h.own⟩

/-- Inline fragments of one key have sets in one place. -/
theorem InlineSpread.StandsAt.same {info : TypeInfo} {f g : InlineSpread}
    (hf : f.StandsAt view info) (hg : g.StandsAt view info) (key : (f.key == g.key) = true) :
    (f.typeInfo == g.typeInfo) = true := by
  obtain ⟨scope, last, here⟩ := hf
  obtain ⟨scope', last', here'⟩ := hg
  have same := (InlineSpread.key_beq_iff.mp key).1
  rw [last, last', Option.some_beq_some] at same
  exact BEq.trans here (BEq.trans (TypeInfo.inScope_congr BEq.rfl same) (BEq.symm here'))

theorem InlineSpread.StandsAt.congr {i j : TypeInfo} {f : InlineSpread} (h : f.StandsAt view i)
    (same : (i == j) = true) : f.StandsAt view j := by
  obtain ⟨scope, last, here⟩ := h
  exact ⟨scope, last, BEq.trans here (TypeInfo.inScope_congr same BEq.rfl)⟩

/-- An inline fragment stands where its scope is entered from. -/
theorem InlineSpread.StandsAt.inScope (info : TypeInfo) (scope : Scope) (direct : DirectSelections)
    (deferral : Deferral) :
    InlineSpread.StandsAt ⟨⟨info.inScope view scope, direct⟩, deferral⟩ view info :=
  ⟨scope, info.last?_enter _ _, BEq.rfl⟩

theorem NamedSpread.StandsAt.congr {i j : TypeInfo} {f : NamedSpread} (h : f.StandsAt i)
    (same : (i == j) = true) : f.StandsAt j :=
  ⟨BEq.trans h.here same, h.typed.trans (TypeInfo.parentType_congr same)⟩

namespace DirectSelections

/-! ## Sets that note their places -/

/-- The selections of the set at a place: all stand there, and so at any depth. -/
inductive Noted (view : SchemaView) (s : EntityStorage) : TypeInfo → DirectSelections → Prop
  | intro {info : TypeInfo} {d : DirectSelections}
      (fields : ∀ e, .entity e ∈ d.fields → e.StandsAt view s info)
      (belowFields : ∀ e, .entity e ∈ d.fields →
        Noted view s e.selectionSet.typeInfo e.selectionSet.direct)
      (inlines : ∀ t ∈ d.inlineFragments, t.StandsAt view info)
      (belowInlines : ∀ t ∈ d.inlineFragments,
        Noted view s t.selectionSet.typeInfo t.selectionSet.direct)
      (spreads : ∀ t ∈ d.namedFragments, t.StandsAt info) : Noted view s info d

/-- A field is one of a set at a place. -/
def FieldNoted (view : SchemaView) (s : EntityStorage) (info : TypeInfo) (f : Field) : Prop :=
  ∀ e, f = .entity e → e.StandsAt view s info
    ∧ e.selectionSet.direct.Noted view s e.selectionSet.typeInfo

/-- An inline fragment is one of a set at a place. -/
structure InlineNoted (view : SchemaView) (s : EntityStorage) (info : TypeInfo)
    (f : InlineSpread) : Prop where
  stands : f.StandsAt view info
  below : f.selectionSet.direct.Noted view s f.selectionSet.typeInfo

section Noted

variable {s : EntityStorage} {info info' : TypeInfo} {d : DirectSelections}

theorem Noted.field (h : d.Noted view s info) {f : Field} (mem : f ∈ d.fields) :
    FieldNoted view s info f := by
  obtain ⟨fields, belowFields, _, _, _⟩ := h
  rintro e rfl
  exact ⟨fields e mem, belowFields e mem⟩

/-- A field that is built stands where its entity is one step further. -/
theorem FieldNoted.build {f : FieldSelection} {id : FieldId} {own : Inclusion} {entity : EntityId}
    {below : DirectSelections} (step : ∃ path, s.pathOf? info.entity = some path
      ∧ s.pathOf? entity = some (path.append ⟨f.responseKey, f.type⟩))
    (inside : below.Noted view s (f.inside view entity)) :
    FieldNoted view s info (f.build id own ⟨f.inside view entity, below⟩) := by
  rintro _ ⟨⟩
  exact ⟨⟨step, rfl⟩, inside⟩

theorem Noted.inline (h : d.Noted view s info) {f : InlineSpread} (mem : f ∈ d.inlineFragments) :
    InlineNoted view s info f := by
  obtain ⟨_, _, inlines, belowInlines, _⟩ := h
  exact ⟨inlines f mem, belowInlines f mem⟩

theorem Noted.spread (h : d.Noted view s info) {f : NamedSpread} (mem : f ∈ d.namedFragments) :
    f.StandsAt info := by
  obtain ⟨_, _, _, _, spreads⟩ := h
  exact spreads f mem

/-- It is enough to look at each selection of the set. -/
theorem Noted.of_forall (fields : ∀ f ∈ d.fields, FieldNoted view s info f)
    (inlines : ∀ f ∈ d.inlineFragments, InlineNoted view s info f)
    (spreads : ∀ f ∈ d.namedFragments, f.StandsAt info) : d.Noted view s info :=
  .intro (fun e mem => (fields _ mem e rfl).1) (fun e mem => (fields _ mem e rfl).2)
    (fun f mem => (inlines f mem).stands) (fun f mem => (inlines f mem).below) spreads

theorem Noted.nothing (info : TypeInfo) : empty.Noted view s info :=
  .of_forall (by simp [empty]) (by simp [empty]) (by simp [empty])

theorem Noted.congr (h : d.Noted view s info) (same : (info == info') = true) :
    d.Noted view s info' :=
  .of_forall (fun _ mem e eq => ⟨(h.field mem e eq).1.congr same, (h.field mem e eq).2⟩)
    (fun _ mem => ⟨(h.inline mem).stands.congr same, (h.inline mem).below⟩)
    fun _ mem => (h.spread mem).congr same

theorem Noted.putField (h : d.Noted view s info) {new : Field}
    (fits : FieldNoted view s info new) : (d.putField new).Noted view s info :=
  .of_forall (Ordered.forall_upsert (fun _ => h.field) (fun _ _ _ => fits) fits)
    (fun _ => h.inline) fun _ => h.spread

theorem Noted.putInline (h : d.Noted view s info) {new : InlineSpread}
    (fits : InlineNoted view s info new) : (d.putInline new).Noted view s info :=
  .of_forall (fun _ => h.field)
    (Ordered.forall_upsert (fun _ => h.inline) (fun _ _ _ => fits) fits) fun _ => h.spread

theorem Noted.addSpread (h : d.Noted view s info) {new : NamedSpread}
    (fits : new.StandsAt info) : (d.addSpread new).Noted view s info := by
  refine .of_forall (fun _ => h.field) (fun _ => h.inline)
    (Ordered.forall_upsert (fun _ => h.spread) ?_ fits)
  -- A spread that others are merged into stays where it is.
  exact fun held mem _ => ⟨(h.spread mem).here, (h.spread mem).typed⟩

variable {fields : List Field} {inlines : List InlineSpread} {spreads : List NamedSpread}

theorem Noted.fields_cons {f : Field} (h : (mk (f :: fields) inlines spreads).Noted view s info) :
    FieldNoted view s info f ∧ (mk fields inlines spreads).Noted view s info :=
  ⟨h.field (List.mem_cons_self ..), .of_forall (fun _ mem => h.field (List.mem_cons_of_mem _ mem))
    (fun _ => h.inline) fun _ => h.spread⟩

theorem Noted.inlines_cons {f : InlineSpread}
    (h : (mk [] (f :: inlines) spreads).Noted view s info) :
    InlineNoted view s info f ∧ (mk [] inlines spreads).Noted view s info :=
  ⟨h.inline (List.mem_cons_self ..), .of_forall (fun _ => h.field)
    (fun _ mem => h.inline (List.mem_cons_of_mem _ mem)) fun _ => h.spread⟩

theorem Noted.spreads_cons {f : NamedSpread}
    (h : (mk [] [] (f :: spreads)).Noted view s info) :
    f.StandsAt info ∧ (mk [] [] spreads).Noted view s info :=
  ⟨h.spread (List.mem_cons_self ..), .of_forall (fun _ => h.field) (fun _ => h.inline)
    fun _ mem => h.spread (List.mem_cons_of_mem _ mem)⟩

/-- Putting selections together at one place leaves them there.  The induction is on how they are put
together; what is merged has one place already, so that it does not matter whose is kept. -/
theorem Merging.noted {added r : DirectSelections} (h : Merging d added r) :
    ∀ {info : TypeInfo}, d.Noted view s info → added.Noted view s info →
      r.Noted view s info := by
  induction h with
  | done => exact fun noted _ => noted
  | newField _ _ ih =>
      intro info noted adds
      obtain ⟨fits, later⟩ := adds.fields_cons
      exact ih (noted.putField fits) later
  | heldScalar _ _ ih =>
      intro info noted adds
      exact ih (noted.putField (by rintro e ⟨⟩)) adds.fields_cons.2
  | heldEntity found same _ _ ihInside ih =>
      intro info noted adds
      obtain ⟨fits, later⟩ := adds.fields_cons
      obtain ⟨stands, below⟩ := fits _ rfl
      obtain ⟨heldStands, heldBelow⟩ := noted.field (List.mem_of_find?_eq_some found) _ rfl
      rw [← heldStands.same stands same] at below
      refine ih (noted.putField ?_) later
      rintro _ ⟨⟩
      exact ⟨⟨heldStands.step, heldStands.own⟩, ihInside heldBelow below⟩
  | newInline _ _ ih =>
      intro info noted adds
      obtain ⟨fits, later⟩ := adds.inlines_cons
      exact ih (noted.putInline fits) later
  | heldInline found _ _ ihInside ih =>
      intro info noted adds
      obtain ⟨fits, later⟩ := adds.inlines_cons
      have held := noted.inline (List.mem_of_find?_eq_some found)
      have here := held.stands.same fits.stands (List.find?_some found :)
      exact ih (noted.putInline ⟨held.stands, ihInside held.below (fits.below.congr (BEq.symm here))⟩)
        later
  | spread _ ih =>
      intro info noted adds
      obtain ⟨fits, later⟩ := adds.spreads_cons
      exact ih (noted.addSpread fits) later

theorem Noted.addField (h : d.Noted view s info) {f : Field} (fits : FieldNoted view s info f)
    {r : DirectSelections} (added : d.addField f = .ok r) : r.Noted view s info :=
  (merging_addField added).noted h (Noted.putField (.nothing info) fits)

theorem Noted.addInline (h : d.Noted view s info) {f : InlineSpread}
    (fits : InlineNoted view s info f) {r : DirectSelections} (added : d.addInline f = .ok r) :
    r.Noted view s info :=
  (merging_addInline added).noted h (Noted.putInline (.nothing info) fits)

/-- A spread stands in the set itself, or alone in a scope that it enters. -/
theorem Noted.addSpreadAt (h : d.Noted view s info) {handle : FragmentHandle} {own : Inclusion}
    {deferral : Deferral} {r : DirectSelections}
    (added : Walk.addSpread info d ⟨handle, Walk.spreadSite view info handle.typeCondition, own,
      deferral⟩ = .ok r) : r.Noted view s info := by
  unfold Walk.addSpread Walk.spreadSite Walk.spreadScope? at added
  by_cases same : (handle.typeCondition == info.parentType) = true
  · simp only [same, if_true] at added
    cases added
    exact h.addSpread ⟨BEq.rfl, eq_of_beq same⟩
  · simp only [same, Bool.false_eq_true, if_false] at added
    have typed : handle.typeCondition
        = (info.inScope view ⟨handle.typeCondition, none⟩).parentType :=
      (info.parentType_inScope view ⟨handle.typeCondition, none⟩).symm
    exact h.addInline ⟨.inScope info _ _ _, .addSpread (.nothing _) ⟨BEq.rfl, typed⟩⟩ added

end Noted

end DirectSelections

/-! ## Walks -/

section Walked

variable {built : List NamedFragment} {final : EntityStorage} {info : TypeInfo}
  {direct direct' : DirectSelections} {draft draft' : Draft} {ss : List Selection}

open DirectSelections in
/-- What a walk adds to a set stands where the set is.  Entities are looked up where the walk ends, for
they keep their numbers. -/
theorem Walked.noted (fragments : ∀ g ∈ built, g.Inlined view document)
    (h : Walked view built info direct draft ss direct' draft') :
    ∀ {path : FieldPath}, draft.entities.WellFormed →
      draft.entities.pathOf? info.entity = some path → draft'.entities.Extends final →
      direct.Noted view final info → direct'.Noted view final info := by
  induction h with
  | nil => exact fun _ _ _ noted => noted
  | skipped _ _ ih => exact ih
  | @leaf _ _ _ _ _ _ _ _ inclusion included isLeaf added _ ih =>
      intro path wf at_ ends noted
      have grown := adds_leaf wf at_ isLeaf inclusion
      exact ih grown.wellFormed (grown.extended.paths _ _ at_) ends
        (noted.addField (by rintro e ⟨⟩) added)
  | entity included isComposite selected inner added walked ihInner ih =>
      intro path wf at_ ends noted
      obtain ⟨grown, at'⟩ := adds_entity wf at_ isComposite _ selected
      have inside := inner.adds fragments grown.wellFormed at'
      have at₁ := inside.extended.paths _ _ (grown.extended.paths _ _ at_)
      have later := (walked.adds fragments inside.wellFormed at₁).extended.trans ends
      have step := later.paths _ _ (inside.extended.paths _ _ at')
      have below := ihInner grown.wellFormed at' later (.nothing _)
      exact ih inside.wellFormed at₁ ends
        (noted.addField (.build ⟨path, later.paths _ _ at₁, step⟩ below) added)
  | flat _ _ _ _ within walked ihInside ih =>
      intro path wf at_ ends noted
      have inside := within.adds fragments wf at_
      have at₁ := inside.extended.paths _ _ at_
      have later := (walked.adds fragments inside.wellFormed at₁).extended.trans ends
      exact ih inside.wellFormed at₁ ends (ihInside wf at_ later noted)
  | inline _ _ _ _ within added walked ihInside ih =>
      intro path wf at_ ends noted
      have inside := within.adds fragments wf at_
      have at₁ := inside.extended.paths _ _ at_
      have later := (walked.adds fragments inside.wellFormed at₁).extended.trans ends
      have below := ihInside wf at_ later (.nothing _)
      exact ih inside.wellFormed at₁ ends
        (noted.addInline ⟨.inScope _ _ _ _, below⟩ added)
  | spread included deferred found merged added _ ih =>
      intro path wf at_ ends noted
      have grown := (Walked.spread included deferred found merged added .nil).adds fragments wf at_
      exact ih grown.wellFormed (grown.extended.paths _ _ at_) ends (noted.addSpreadAt added)

/-- The direct selections of a definition stand where they are noted to. -/
theorem WalkedFrom.noted (fragments : ∀ g ∈ built, g.Inlined view document)
    {source : SourceDefinition} {rootName : Name} {b : BuiltSelections}
    (h : WalkedFrom view built source rootName b) :
    b.rootField.selectionSet.direct.Noted view b.entities b.rootField.selectionSet.typeInfo := by
  obtain ⟨direct, draft, walked, rfl⟩ := h
  have start := EntityStorage.start_wellFormed source
  exact walked.noted fragments start start.rootFirst (.refl draft.entities) (.nothing _)

end Walked

/-! ## Sets that are reached -/

/-- The sets inside a set, each with the fields on the way to it and with the scopes of the inline
fragments that are entered since the last field. -/
inductive SelectionSet.ReachedBy (outer : SelectionSet) :
    List PathComponent → List Scope → SelectionSet → Prop
  | self : ReachedBy outer [] [] outer
  | field {path : List PathComponent} {scopes : List Scope} {set : SelectionSet} {e : EntityField}
      (reached : ReachedBy outer path scopes set) (mem : .entity e ∈ set.direct.fields) :
      ReachedBy outer (path ++ [⟨e.responseKey, e.type⟩]) [] e.selectionSet
  | inline {path : List PathComponent} {scopes : List Scope} {set : SelectionSet}
      {s : InlineSpread} {scope : Scope} (reached : ReachedBy outer path scopes set)
      (mem : s ∈ set.direct.inlineFragments) (own : s.typeInfo.scopePath.last? = some scope) :
      ReachedBy outer path (scopes ++ [scope]) s.selectionSet

namespace SelectionSet.ReachedBy

variable {outer set : SelectionSet} {path : List PathComponent} {scopes : List Scope}

theorem within (h : outer.ReachedBy path scopes set) : outer.Within set := by
  induction h with
  | self => exact .self
  | field _ mem ih => exact .field ih mem
  | inline _ mem _ ih => exact .inline ih mem

/-- A set that is reached notes its place, if the first one does and is on the root's own type. -/
theorem noted {s : EntityStorage} (wf : s.WellFormed)
    (noted : outer.direct.Noted view s outer.typeInfo) (root : outer.typeInfo.entity = .root)
    (rootType : outer.typeInfo.rootType = s.source.rootType)
    (rootScope : outer.typeInfo.scopePath = .root) (h : outer.ReachedBy path scopes set) :
    set.direct.Noted view s set.typeInfo
      ∧ s.pathOf? set.typeInfo.entity = some ⟨path⟩
      ∧ set.typeInfo.rootType = FieldPath.typeFrom ⟨path⟩ s.source.rootType
      ∧ (set.typeInfo.scopePath == ⟨scopes⟩) = true := by
  induction h with
  | self =>
      refine ⟨noted, root ▸ wf.rootFirst, rootType.trans rfl, ?_⟩
      rw [rootScope]
      exact BEq.rfl
  | field reached mem ih =>
      obtain ⟨noted, at_, -, -⟩ := ih
      obtain ⟨stands, below⟩ := noted.field mem _ rfl
      obtain ⟨p, at', step⟩ := stands.step
      cases at_.symm.trans at'
      refine ⟨below, step, ?_, ?_⟩
      · rw [stands.own]
        simp [FieldPath.typeFrom, FieldPath.last?]
      · rw [stands.own]
        exact BEq.rfl
  | inline reached mem own ih =>
      obtain ⟨noted, at_, rootType, scope⟩ := ih
      obtain ⟨⟨last, own', here⟩, below⟩ := noted.inline mem
      cases own.symm.trans own'
      obtain ⟨entity, type, inside, -⟩ := TypeInfo.beq_iff.mp here
      refine ⟨below, ?_, type.trans rootType, BEq.trans inside ?_⟩
      · exact entity.symm ▸ at_
      · exact ScopePath.concat_congr (q := ⟨[_]⟩) scope BEq.rfl

end SelectionSet.ReachedBy

/-- Every selection set of a definition notes the place where it is reached from the root: the entity
at the path of the fields on the way, that entity's type, and the scopes of the inline fragments
entered since the last field.  Each inline fragment is found under its own scope and deferral.  Each
spread notes the place of the set that has it, and its fragment is on the type selected on there. -/
theorem selection_sets_note_their_positions (document : Document) (s : Session)
    (reachable : s.Reachable document) (d : ExecutableDefinition) (b : BuiltSelections)
    (builds : s.Builds d b) (path : List PathComponent) (scopes : List Scope) (set : SelectionSet)
    (reached : b.rootField.selectionSet.ReachedBy path scopes set) :
    (∃ e, b.entities.get? set.typeInfo.entity = some e ∧ e.id = set.typeInfo.entity
        ∧ b.entities.atLocation? ((Location.root b.entities.source).appendAll path) = some e
        ∧ set.typeInfo.rootType = e.rootType)
      ∧ (set.typeInfo.scopePath == ⟨scopes⟩) = true
      ∧ (∀ inner ∈ set.direct.inlineFragments, ∃ scope,
        inner.typeInfo.scopePath.last? = some scope
          ∧ set.direct.inlineFragments.find? (fun t => t.key == (some scope, inner.deferral))
            = some inner)
      ∧ ∀ spread ∈ set.direct.namedFragments, (spread.typeInfo == set.typeInfo) = true
        ∧ spread.fragment.typeCondition = set.typeInfo.parentType := by
  obtain ⟨built, id, rootName, library, walked⟩ := builds.walked reachable
  have wf := (walked.inlines library.inlined).wellFormed
  have tidy := (walked.faithful library.inlined library.closed).1.tidy.within reached.within
  have source := walked.source_entities library
  obtain ⟨noted, at_, rootType, scope⟩ := reached.noted wf (walked.noted library.inlined)
    (by obtain ⟨direct, draft, -, rfl⟩ := walked; rfl)
    (by rw [source]; obtain ⟨direct, draft, -, rfl⟩ := walked; rfl)
    (by obtain ⟨direct, draft, -, rfl⟩ := walked; rfl)
  refine ⟨?_, scope, fun inner mem => ?_, fun spread mem => ?_⟩
  · obtain ⟨e, get, path⟩ := EntityStorage.pathOf?_eq_some_iff.mp at_
    have memE : e ∈ b.entities.entities := List.mem_of_getElem? get
    refine ⟨e, get, wf.ids _ _ get, ?_, ?_⟩
    · exact (wf.atLocation?_eq_some_iff rfl).mpr ⟨memE, path⟩
    · rw [rootType, ← path]
      exact (wf.rootType_eq memE).symm
  · obtain ⟨scope, own, -⟩ := (noted.inline mem).stands
    refine ⟨scope, own, ?_⟩
    obtain ⟨_, scopeKeys, _, _, _, _, _, _⟩ := tidy
    have key : inner.key = (some scope, inner.deferral) := congrArg (·, inner.deferral) own
    rw [← key]
    refine Ordered.find?_eq_some_of_apart (scopeKeys.imp ?_) mem inner.key_refl
    intro t u apart same
    rw [← Bool.not_eq_true] at apart ⊢
    exact fun same' => apart (InlineSpread.key_trans same (InlineSpread.key_symm same'))
  · exact ⟨(noted.spread mem).here, (noted.spread mem).typed⟩

/-- In `query { hero { ... @include(if: $a) { name } ... @include(if: $a) { ...Friendly } } }` the set
of the spread is merged into the one of the name, on the hero and in the scope of both. -/
theorem heros_scope_notes_its_position :
    let inner : List Selection → Selection := .inlineFragment none [Heroes.includedIf "a"]
    let hero := Heroes.heroField "hero" []
      [inner [.field Heroes.nameField], inner [.fragmentSpread "Friendly" []]]
    let o := Heroes.query [.field hero]
    let document : Document :=
      ⟨[o], [⟨⟨"Friendly", "Hero", [], [.field Heroes.nameField]⟩, none⟩]⟩
    ∃ (s : Session) (b : BuiltSelections) (set : SelectionSet) (scope : Scope),
      s.Reachable document ∧ s.Builds (.operation o.definition) b
      ∧ b.rootField.selectionSet.ReachedBy [⟨"hero", .named "Hero"⟩] [scope] set
      ∧ set.direct.fields.isEmpty = false ∧ set.direct.namedFragments.isEmpty = false
      ∧ (set.typeInfo.scopePath == ⟨[scope]⟩) = true
      ∧ ∃ e, b.entities.get? set.typeInfo.entity = some e ∧ set.typeInfo.rootType = e.rootType := by
  intro inner hero o document
  obtain ⟨s, b, reachable, -, builds, check⟩ := Session.exists_builds document Heroes.schema o
    (fun b => b.rootField.selectionSet.direct.fields.any fun f => f.entity?.any fun (e : EntityField) =>
      e.responseKey == "hero" && decide (e.type = .named "Hero")
        && e.selectionSet.direct.inlineFragments.any fun (t : InlineSpread) =>
          t.typeInfo.scopePath.last?.isSome && !t.selectionSet.direct.fields.isEmpty
            && !t.selectionSet.direct.namedFragments.isEmpty)
    (by decide +kernel)
  obtain ⟨f, memF, check⟩ := List.any_eq_true.mp check
  obtain ⟨e, entity, check⟩ := (Option.any_eq_true _ _).mp check
  simp only [Bool.and_eq_true, beq_iff_eq, decide_eq_true_eq, List.any_eq_true,
    Bool.not_eq_true'] at check
  obtain ⟨⟨key, type⟩, t, memT, ⟨opened, fields⟩, spreads⟩ := check
  obtain ⟨scope, last⟩ := Option.isSome_iff_exists.mp opened
  obtain rfl : f = .entity e := by
    cases f with
    | scalar f => cases entity
    | entity g => exact congrArg Field.entity (Option.some.inj entity)
  have reached : b.rootField.selectionSet.ReachedBy [⟨e.responseKey, e.type⟩] [scope]
      t.selectionSet := .inline (.field .self memF) memT last
  obtain ⟨⟨d, get, -, -, rootType⟩, inScope, -⟩ :=
    selection_sets_note_their_positions document s reachable _ b builds _ _ _ reached
  rw [key, type] at reached
  exact ⟨s, b, t.selectionSet, scope, reachable, builds, reached, fields, spreads, inScope, d, get,
    rootType⟩

end SelectionGraph
