import SelectionGraph.Proofs.Direct.Address

/-!
# Shape — what keeps direct selections from being put together

A field of leaf type has no shape; one that selects on an entity has the shape of its type.  Direct
selections are read chain by chain of the keys that lead to a set.

* `DirectSelections.Holds`   — the set at a chain of keys holds a field of a key and a shape;
* `DirectSelections.Placed`  — the entities of fields are where the fields lead to, at any depth;
* `Merging.merged`           — putting selections together adds up what they hold;
* `clash_merge`              — where it fails, the two hold fields of one key and two shapes;
* `Tidy.holds_unique`        — tidy selections never hold two shapes for one key.
-/

namespace SelectionGraph

/-- The key of a selection that has selections below it. -/
inductive SetKey
  | field (responseKey : Name)
  | scope (scope : Scope) (deferral : Deferral)

/-- The type of a field that selects on an entity; none for a field of leaf type. -/
def Field.shape : Field → Option TypeRef
  | .scalar _ => none
  | .entity f => some f.type

namespace DirectSelections

/-! ## Reading -/

/-- In the set that a chain of keys leads to, the field of a key has a shape. -/
def Holds : List SetKey → Name → Option TypeRef → DirectSelections → Prop
  | [], key, shape, d => ∃ f ∈ d.fields, f.responseKey = key ∧ f.shape = shape
  | .field k :: chain, key, shape, d =>
      ∃ f ∈ d.fields, f.responseKey = k
        ∧ ∃ e, f = .entity e ∧ Holds chain key shape e.selectionSet.direct
  | .scope scope deferral :: chain, key, shape, d =>
      ∃ s ∈ d.inlineFragments, s.Opens scope deferral ∧ Holds chain key shape s.selectionSet.direct

end DirectSelections

/-- What a field holds by itself: its own shape, and what is below it. -/
def Field.Offers (chain : List SetKey) (key : Name) (shape : Option TypeRef) (f : Field) : Prop :=
  match chain with
  | [] => f.responseKey = key ∧ f.shape = shape
  | .field k :: rest =>
      f.responseKey = k ∧ ∃ e, f = .entity e ∧ e.selectionSet.direct.Holds rest key shape
  | .scope _ _ :: _ => False

/-- What an inline fragment holds by itself. -/
def InlineSpread.Offers (chain : List SetKey) (key : Name) (shape : Option TypeRef)
    (s : InlineSpread) : Prop :=
  match chain with
  | .scope scope deferral :: rest =>
      s.Opens scope deferral ∧ s.selectionSet.direct.Holds rest key shape
  | _ => False

namespace DirectSelections

variable {d : DirectSelections} {chain : List SetKey} {key : Name} {shape : Option TypeRef}

theorem holds_iff : d.Holds chain key shape
    ↔ (∃ f ∈ d.fields, f.Offers chain key shape)
      ∨ ∃ s ∈ d.inlineFragments, s.Offers chain key shape := by
  rcases chain with _ | ⟨_ | _, rest⟩ <;> simp [Holds, Field.Offers, InlineSpread.Offers]

theorem not_holds_empty : ¬ empty.Holds chain key shape := by
  simp [holds_iff, empty]

/-- Spreads hold no fields. -/
theorem holds_mk (fields : List Field) (inlines : List InlineSpread) (spreads : List NamedSpread) :
    (mk fields inlines spreads).Holds chain key shape
      ↔ (mk fields [] []).Holds chain key shape ∨ (mk [] inlines []).Holds chain key shape := by
  simp [holds_iff]

theorem holds_fields_cons {f : Field} {fields : List Field} {inlines : List InlineSpread}
    {spreads : List NamedSpread} :
    (mk (f :: fields) inlines spreads).Holds chain key shape
      ↔ (mk [f] [] []).Holds chain key shape ∨ (mk fields inlines spreads).Holds chain key shape := by
  simp [holds_iff, or_assoc]

theorem holds_inlines_cons {s : InlineSpread} {inlines : List InlineSpread}
    {spreads : List NamedSpread} :
    (mk [] (s :: inlines) spreads).Holds chain key shape
      ↔ (mk [] [s] []).Holds chain key shape ∨ (mk [] inlines spreads).Holds chain key shape := by
  simp [holds_iff]

theorem holds_spreads_cons {s : NamedSpread} {spreads : List NamedSpread} :
    (mk [] [] (s :: spreads)).Holds chain key shape
      ↔ (mk [] [] [s]).Holds chain key shape ∨ (mk [] [] spreads).Holds chain key shape := by
  simp [holds_iff]

theorem not_holds_one_spread {s : NamedSpread} : ¬ (mk [] [] [s]).Holds chain key shape := by
  simp [holds_iff]

theorem holds_one_field {f : Field} :
    (mk [f] [] []).Holds chain key shape ↔ f.Offers chain key shape := by
  simp [holds_iff]

theorem holds_one_inline {s : InlineSpread} :
    (mk [] [s] []).Holds chain key shape ↔ s.Offers chain key shape := by
  simp [holds_iff]

theorem holds_addSpread (s : NamedSpread) :
    (d.addSpread s).Holds chain key shape ↔ d.Holds chain key shape := by
  simp [holds_iff, addSpread]

/-- A field that is put in the place of another adds what it offers beyond it. -/
theorem holds_putField {new f : Field} (same : new.responseKey = f.responseKey)
    (held : ∀ g, d.field? f.responseKey = some g → ∀ chain key shape,
      (new.Offers chain key shape ↔ g.Offers chain key shape ∨ f.Offers chain key shape))
    (unheld : d.field? f.responseKey = none → new = f) :
    (d.putField new).Holds chain key shape
      ↔ d.Holds chain key shape ∨ (mk [f] [] []).Holds chain key shape := by
  have fields : (∃ g ∈ (d.putField new).fields, g.Offers chain key shape)
      ↔ (∃ g ∈ d.fields, g.Offers chain key shape) ∨ f.Offers chain key shape :=
    exists_putField same (fun g found => held g found chain key shape) unheld
  rw [holds_iff, fields, holds_one_field, holds_iff]
  exact or_right_comm

/-- An inline fragment that is put in the place of another adds what it offers beyond it. -/
theorem holds_putInline {new s : InlineSpread} (same : (new.key == s.key) = true)
    (held : ∀ t, d.inlineFragments.find? (fun t => t.key == s.key) = some t → ∀ chain key shape,
      (new.Offers chain key shape ↔ t.Offers chain key shape ∨ s.Offers chain key shape))
    (unheld : d.inlineFragments.find? (fun t => t.key == s.key) = none → new = s) :
    (d.putInline new).Holds chain key shape
      ↔ d.Holds chain key shape ∨ (mk [] [s] []).Holds chain key shape := by
  have inlines : (∃ t ∈ (d.putInline new).inlineFragments, t.Offers chain key shape)
      ↔ (∃ t ∈ d.inlineFragments, t.Offers chain key shape) ∨ s.Offers chain key shape :=
    exists_putInline same (fun t found => held t found chain key shape) unheld
  rw [holds_iff, inlines, holds_one_inline, holds_iff]
  exact or_assoc.symm

/-- Tidy selections have one field for each key, so they hold one shape for it. -/
theorem Tidy.holds_unique {typed : TypeInfo → Prop} {known : FragmentHandle → Prop}
    (h : d.Tidy typed known) {shape' : Option TypeRef} (holds : d.Holds chain key shape)
    (holds' : d.Holds chain key shape') : shape = shape' := by
  induction chain generalizing d with
  | nil =>
      obtain ⟨f, mem, same, rfl⟩ := holds
      obtain ⟨g, mem', same', rfl⟩ := holds'
      rw [h.field_unique mem mem' (same.trans same'.symm)]
  | cons turn rest ih =>
      cases turn with
      | field k =>
          obtain ⟨_, mem, same, e, rfl, below⟩ := holds
          obtain ⟨_, mem', same', e', rfl, below'⟩ := holds'
          cases h.field_unique mem mem' (same.trans same'.symm)
          exact ih (h.entity mem).2 below below'
      | scope scope deferral =>
          obtain ⟨s, mem, opens, inside⟩ := holds
          obtain ⟨s', mem', opens', inside'⟩ := holds'
          cases h.inline_unique mem mem' (InlineSpread.key_of_opens opens opens')
          exact ih (h.inline mem).2 inside inside'

/-! ## Places of entities -/

/-- The fields of a set at a path select on the entities one step further; so for the sets below. -/
inductive Placed (located : EntityId → FieldPath → Prop) : FieldPath → DirectSelections → Prop
  | intro {path : FieldPath} {d : DirectSelections}
      (fields : ∀ e, .entity e ∈ d.fields → located e.entity (path.append ⟨e.responseKey, e.type⟩))
      (belowFields : ∀ e, .entity e ∈ d.fields →
        Placed located (path.append ⟨e.responseKey, e.type⟩) e.selectionSet.direct)
      (belowScopes : ∀ s ∈ d.inlineFragments, Placed located path s.selectionSet.direct) :
      Placed located path d

section Placed

variable {located located' : EntityId → FieldPath → Prop} {path : FieldPath}

theorem Placed.nothing : empty.Placed located path := by
  refine .intro ?_ ?_ ?_ <;> simp [empty]

theorem Placed.imp (more : ∀ id p, located id p → located' id p) (h : d.Placed located path) :
    d.Placed located' path := by
  induction h with
  | intro fields _ _ ihFields ihScopes =>
      exact .intro (fun e mem => more _ _ (fields e mem)) ihFields ihScopes

theorem Placed.entity (h : d.Placed located path) {e : EntityField} (mem : .entity e ∈ d.fields) :
    located e.entity (path.append ⟨e.responseKey, e.type⟩)
      ∧ e.selectionSet.direct.Placed located (path.append ⟨e.responseKey, e.type⟩) := by
  obtain ⟨fields, belowFields, _⟩ := h
  exact ⟨fields e mem, belowFields e mem⟩

theorem Placed.inline (h : d.Placed located path) {s : InlineSpread} (mem : s ∈ d.inlineFragments) :
    s.selectionSet.direct.Placed located path := by
  obtain ⟨_, _, belowScopes⟩ := h
  exact belowScopes s mem

theorem Placed.putField (h : d.Placed located path) {new : Field}
    (fits : ∀ e, new = .entity e → located e.entity (path.append ⟨e.responseKey, e.type⟩)
      ∧ e.selectionSet.direct.Placed located (path.append ⟨e.responseKey, e.type⟩)) :
    (d.putField new).Placed located path := by
  obtain ⟨fields, belowFields, belowScopes⟩ := h
  have all : ∀ f ∈ (d.putField new).fields, ∀ e, f = .entity e →
      located e.entity (path.append ⟨e.responseKey, e.type⟩)
        ∧ e.selectionSet.direct.Placed located (path.append ⟨e.responseKey, e.type⟩) := by
    refine Ordered.forall_upsert ?_ (fun _ _ _ => fits) fits
    rintro _ mem e rfl
    exact ⟨fields e mem, belowFields e mem⟩
  exact .intro (fun e mem => (all _ mem e rfl).1) (fun e mem => (all _ mem e rfl).2) belowScopes

theorem Placed.putInline (h : d.Placed located path) {new : InlineSpread}
    (inside : new.selectionSet.direct.Placed located path) :
    (d.putInline new).Placed located path := by
  obtain ⟨fields, belowFields, belowScopes⟩ := h
  exact .intro fields belowFields (Ordered.forall_upsert belowScopes (fun _ _ _ => inside) inside)

theorem Placed.addSpread (h : d.Placed located path) (s : NamedSpread) :
    (d.addSpread s).Placed located path := by
  obtain ⟨fields, belowFields, belowScopes⟩ := h
  exact .intro fields belowFields belowScopes

theorem Placed.oneField {f : Field}
    (fits : ∀ e, f = .entity e → located e.entity (path.append ⟨e.responseKey, e.type⟩)
      ∧ e.selectionSet.direct.Placed located (path.append ⟨e.responseKey, e.type⟩)) :
    (mk [f] [] []).Placed located path :=
  Placed.putField .nothing fits

theorem Placed.oneInline {s : InlineSpread} (inside : s.selectionSet.direct.Placed located path) :
    (mk [] [s] []).Placed located path :=
  Placed.putInline .nothing inside

theorem Placed.fields_cons {f : Field} {fields : List Field} {inlines : List InlineSpread}
    {spreads : List NamedSpread} (h : (mk (f :: fields) inlines spreads).Placed located path) :
    (∀ e, f = .entity e → located e.entity (path.append ⟨e.responseKey, e.type⟩)
        ∧ e.selectionSet.direct.Placed located (path.append ⟨e.responseKey, e.type⟩))
      ∧ (mk fields inlines spreads).Placed located path := by
  refine ⟨?_, ?_⟩
  · rintro e rfl
    exact h.entity (List.mem_cons_self ..)
  · obtain ⟨here, belowFields, belowScopes⟩ := h
    exact .intro (fun e mem => here e (List.mem_cons_of_mem _ mem))
      (fun e mem => belowFields e (List.mem_cons_of_mem _ mem)) belowScopes

theorem Placed.inlines_cons {s : InlineSpread} {inlines : List InlineSpread}
    {spreads : List NamedSpread} (h : (mk [] (s :: inlines) spreads).Placed located path) :
    s.selectionSet.direct.Placed located path ∧ (mk [] inlines spreads).Placed located path := by
  obtain ⟨here, belowFields, belowScopes⟩ := h
  obtain ⟨inside, belowScopes⟩ := List.forall_mem_cons.mp belowScopes
  exact ⟨inside, .intro here belowFields belowScopes⟩

theorem Placed.spreads_tail {s : NamedSpread} {spreads : List NamedSpread}
    (h : (mk [] [] (s :: spreads)).Placed located path) : (mk [] [] spreads).Placed located path := by
  obtain ⟨here, belowFields, belowScopes⟩ := h
  exact .intro here belowFields belowScopes

theorem Placed.parts {fields : List Field} {inlines : List InlineSpread}
    {spreads : List NamedSpread} (h : (mk fields inlines spreads).Placed located path) :
    (mk fields [] []).Placed located path ∧ (mk [] inlines []).Placed located path := by
  obtain ⟨here, belowFields, belowScopes⟩ := h
  exact ⟨.intro here belowFields (by simp), .intro (by simp) (by simp) belowScopes⟩

end Placed

/-! ## Selections that can be put together -/

/-- Direct selections come from others by adding what some hold. -/
structure Merged (located : EntityId → FieldPath → Prop) (path : FieldPath)
    (d added r : DirectSelections) : Prop where
  placed : r.Placed located path
  holds : ∀ chain key shape,
    r.Holds chain key shape ↔ d.Holds chain key shape ∨ added.Holds chain key shape

section Merging

variable {located : EntityId → FieldPath → Prop} {path : FieldPath} {added r : DirectSelections}

theorem Merged.trans {d₁ a₁ a₂ : DirectSelections} (first : Merged located path d a₁ d₁)
    (second : Merged located path d₁ a₂ r)
    (both : ∀ chain key shape,
      added.Holds chain key shape ↔ a₁.Holds chain key shape ∨ a₂.Holds chain key shape) :
    Merged located path d added r where
  placed := second.placed
  holds chain key shape := by rw [second.holds, first.holds, both, or_assoc]

theorem Placed.merged_empty (h : d.Placed located path) : Merged located path d empty d :=
  ⟨h, fun _ _ _ => (or_iff_left not_holds_empty).symm⟩

theorem merged_newField (h : d.Placed located path) {f : Field}
    (new : d.field? f.responseKey = none)
    (fits : ∀ e, f = .entity e → located e.entity (path.append ⟨e.responseKey, e.type⟩)
      ∧ e.selectionSet.direct.Placed located (path.append ⟨e.responseKey, e.type⟩)) :
    Merged located path d (mk [f] [] []) (d.putField f) := by
  refine ⟨h.putField fits, fun chain key shape => holds_putField rfl ?_ fun _ => rfl⟩
  intro g found
  cases new.symm.trans found

/-- A field of leaf type that is merged into the one of its key. -/
theorem merged_heldScalar (h : d.Placed located path) {held f : ScalarField}
    (found : d.field? f.responseKey = some (.scalar held)) :
    Merged located path d (mk [.scalar f] [] [])
      (d.putField (.scalar { held with inclusion := held.inclusion.merge f.inclusion })) := by
  have same : (Field.scalar held).responseKey = f.responseKey := by
    simpa using List.find?_some found
  refine ⟨h.putField (by simp), fun chain key shape => holds_putField same ?_ ?_⟩
  · intro g found' chain key shape
    cases found.symm.trans found'
    -- A scalar field offers its key only, and both have the same.
    have offers : ∀ k : ScalarField, k.responseKey = f.responseKey →
        ((Field.scalar k).Offers chain key shape ↔ (Field.scalar f).Offers chain key shape) := by
      intro k key
      rcases chain with _ | ⟨_ | _, rest⟩ <;> simp [Field.Offers, Field.responseKey, Field.shape, key]
    rw [offers held same, or_self_iff]
    exact offers _ same
  · intro none
    cases found.symm.trans none

/-- An entity field that is merged into the one of its key.  Both are at one path and select on one
entity, so their types are the same. -/
theorem merged_heldField (functional : ∀ id p q, located id p → located id q → p = q)
    (h : d.Placed located path) {held e : EntityField} {inside : DirectSelections}
    (found : d.field? e.responseKey = some (.entity held))
    (fits : located e.entity (path.append ⟨e.responseKey, e.type⟩))
    (sameEntity : held.entity = e.entity)
    (below : held.selectionSet.direct.Placed located (path.append ⟨e.responseKey, e.type⟩) →
      Merged located (path.append ⟨e.responseKey, e.type⟩) held.selectionSet.direct
        e.selectionSet.direct inside) :
    Merged located path d (mk [.entity e] [] []) (d.putField (.entity { held with
      inclusion := held.inclusion.merge e.inclusion
      selectionSet := { held.selectionSet with direct := inside } })) := by
  obtain ⟨heldFits, heldPlaced⟩ := h.entity (List.mem_of_find?_eq_some found)
  have step := functional _ _ _ (sameEntity ▸ heldFits) fits
  obtain ⟨-, component⟩ := FieldPath.append_inj step
  obtain ⟨sameKey, sameType⟩ := PathComponent.mk.inj component
  rw [sameKey, sameType] at heldPlaced heldFits
  have merged := below heldPlaced
  refine ⟨h.putField ?_, fun chain key shape => holds_putField sameKey ?_ ?_⟩
  · rintro _ ⟨⟩
    dsimp only
    rw [sameKey, sameType]
    exact ⟨heldFits, merged.placed⟩
  · intro g found' chain key shape
    cases found.symm.trans found'
    rcases chain with _ | ⟨_ | _, rest⟩
    · simp [Field.Offers, Field.responseKey, Field.shape, sameKey, sameType]
    · simp only [Field.Offers, Field.responseKey, sameKey, Field.entity.injEq, exists_eq_left',
        merged.holds]
      exact and_or_left
    · simp [Field.Offers]
  · intro none
    cases found.symm.trans none

theorem merged_newInline (h : d.Placed located path) {s : InlineSpread}
    (new : (d.inlineFragments.find? fun t => t.key == s.key) = none)
    (inside : s.selectionSet.direct.Placed located path) :
    Merged located path d (mk [] [s] []) (d.putInline s) := by
  refine ⟨h.putInline inside, fun chain key shape =>
    holds_putInline (InlineSpread.key_refl s) ?_ fun _ => rfl⟩
  intro t found
  cases new.symm.trans found

/-- An inline fragment that is merged into the one of its key. -/
theorem merged_heldInline (h : d.Placed located path) {held s : InlineSpread}
    {inside : DirectSelections}
    (found : (d.inlineFragments.find? fun t => t.key == s.key) = some held)
    (merged : Merged located path held.selectionSet.direct s.selectionSet.direct inside) :
    Merged located path d (mk [] [s] []) (d.putInline { held with
      selectionSet := { held.selectionSet with direct := inside } }) := by
  have same := List.find?_some found
  refine ⟨h.putInline merged.placed, fun chain key shape => holds_putInline same ?_ ?_⟩
  · intro t found' chain key shape
    cases found.symm.trans found'
    rcases chain with _ | ⟨_ | ⟨scope, deferral⟩, rest⟩
    · simp [InlineSpread.Offers]
    · simp [InlineSpread.Offers]
    · have opens : s.Opens scope deferral ↔ held.Opens scope deferral :=
        (InlineSpread.opens_congr same scope deferral).symm
      simp only [InlineSpread.Offers, merged.holds, opens]
      exact and_or_left
  · intro none
    cases found.symm.trans none

theorem merged_addSpread (h : d.Placed located path) (s : NamedSpread) :
    Merged located path d (mk [] [] [s]) (d.addSpread s) :=
  ⟨h.addSpread s, fun _ _ _ => (holds_addSpread s).trans (or_iff_left not_holds_one_spread).symm⟩

/-- Putting selections together adds up what they hold.  The induction is on how they are put
together: each selection is put in by itself, and then the others. -/
theorem Merging.merged (h : Merging d added r)
    (functional : ∀ id p q, located id p → located id q → p = q) :
    ∀ {path : FieldPath}, d.Placed located path → added.Placed located path →
      Merged located path d added r := by
  induction h with
  | done =>
      intro path placed _
      exact placed.merged_empty
  | newField new _ ih =>
      intro path placed adds
      obtain ⟨fits, later⟩ := adds.fields_cons
      have first := merged_newField placed new fits
      exact first.trans (ih first.placed later) fun _ _ _ => holds_fields_cons
  | heldScalar found _ ih =>
      intro path placed adds
      obtain ⟨-, later⟩ := adds.fields_cons
      have first := merged_heldScalar placed found
      exact first.trans (ih first.placed later) fun _ _ _ => holds_fields_cons
  | heldEntity found same _ _ ihInside ih =>
      intro path placed adds
      obtain ⟨fits, later⟩ := adds.fields_cons
      obtain ⟨located, below⟩ := fits _ rfl
      have first := merged_heldField functional placed found located same fun heldPlaced =>
        ihInside heldPlaced below
      exact first.trans (ih first.placed later) fun _ _ _ => holds_fields_cons
  | newInline new _ ih =>
      intro path placed adds
      obtain ⟨inside, later⟩ := adds.inlines_cons
      have first := merged_newInline placed new inside
      exact first.trans (ih first.placed later) fun _ _ _ => holds_inlines_cons
  | heldInline found _ _ ihInside ih =>
      intro path placed adds
      obtain ⟨inside, later⟩ := adds.inlines_cons
      have heldPlaced := placed.inline (List.mem_of_find?_eq_some found)
      have first := merged_heldInline placed found (ihInside heldPlaced inside)
      exact first.trans (ih first.placed later) fun _ _ _ => holds_inlines_cons
  | @spread d r s spreads _ ih =>
      intro path placed adds
      have first := merged_addSpread placed s
      exact first.trans (ih first.placed adds.spreads_tail) fun _ _ _ => holds_spreads_cons

theorem merged_addField (functional : ∀ id p q, located id p → located id q → p = q)
    (h : d.Placed located path) {f : Field}
    (fits : ∀ e, f = .entity e → located e.entity (path.append ⟨e.responseKey, e.type⟩)
      ∧ e.selectionSet.direct.Placed located (path.append ⟨e.responseKey, e.type⟩))
    (adds : d.addField f = .ok r) : Merged located path d (mk [f] [] []) r :=
  (merging_addField adds).merged functional h (.oneField fits)

theorem merged_addInline (functional : ∀ id p q, located id p → located id q → p = q)
    (h : d.Placed located path) {s : InlineSpread}
    (inside : s.selectionSet.direct.Placed located path) (adds : d.addInline s = .ok r) :
    Merged located path d (mk [] [s] []) r :=
  (merging_addInline adds).merged functional h (.oneInline inside)

end Merging

/-! ## Selections that cannot be put together -/

/-- Two sets hold fields of one key and two shapes. -/
def Clash (d added : DirectSelections) : Prop :=
  ∃ chain key shape shape', shape ≠ shape' ∧ d.Holds chain key shape ∧ added.Holds chain key shape'

section Clashing

variable {located : EntityId → FieldPath → Prop} {path : FieldPath} {added : DirectSelections}
  {typed : TypeInfo → Prop} {known : FragmentHandle → Prop} {e : BuildError}

/-- What clashes with selections that were added just now, and not with those before, clashes with
the others that are added together with them; but tidy selections do not clash. -/
theorem Clash.of_later {d₁ a₁ a₂ : DirectSelections} (h : d₁.Clash a₂)
    (first : ∀ chain key shape,
      d₁.Holds chain key shape ↔ d.Holds chain key shape ∨ a₁.Holds chain key shape)
    (tidy : added.Tidy typed known)
    (both : ∀ chain key shape,
      added.Holds chain key shape ↔ a₁.Holds chain key shape ∨ a₂.Holds chain key shape) :
    d.Clash added := by
  obtain ⟨chain, key, shape, shape', differ, held, adds⟩ := h
  have later : added.Holds chain key shape' := (both _ _ _).mpr (Or.inr adds)
  rcases (first _ _ _).mp held with before | here
  · exact ⟨chain, key, shape, shape', differ, before, later⟩
  · have now : added.Holds chain key shape := (both _ _ _).mpr (Or.inl here)
    exact absurd (tidy.holds_unique now later) differ

theorem Clash.mono {a₁ : DirectSelections} (h : d.Clash a₁)
    (more : ∀ chain key shape, a₁.Holds chain key shape → added.Holds chain key shape) :
    d.Clash added := by
  obtain ⟨chain, key, shape, shape', differ, held, adds⟩ := h
  exact ⟨chain, key, shape, shape', differ, held, more _ _ _ adds⟩

/-- Two fields of one key and two shapes clash. -/
theorem Clash.of_fields {f held : Field} (found : d.field? f.responseKey = some held)
    (adds : f ∈ added.fields) (differ : held.shape ≠ f.shape) : d.Clash added := by
  have same : held.responseKey = f.responseKey := by simpa using List.find?_some found
  exact ⟨[], f.responseKey, held.shape, f.shape, differ,
    ⟨held, List.mem_of_find?_eq_some found, same, rfl⟩, ⟨f, adds, rfl, rfl⟩⟩

/-- Sets that clash below two fields of one key. -/
theorem Clash.in_field {f held : EntityField} (found : d.field? f.responseKey = some (.entity held))
    (adds : .entity f ∈ added.fields)
    (h : held.selectionSet.direct.Clash f.selectionSet.direct) : d.Clash added := by
  obtain ⟨chain, key, shape, shape', differ, holds, offers⟩ := h
  have same : (Field.entity held).responseKey = f.responseKey := by
    simpa using List.find?_some found
  exact ⟨.field f.responseKey :: chain, key, shape, shape', differ,
    ⟨_, List.mem_of_find?_eq_some found, same, held, rfl, holds⟩, ⟨_, adds, rfl, f, rfl, offers⟩⟩

/-- Sets that clash below two inline spreads of one key. -/
theorem Clash.in_scope {s held : InlineSpread}
    (found : d.inlineFragments.find? (fun t => t.key == s.key) = some held)
    (opened : s.typeInfo.scopePath.last?.isSome = true) (adds : s ∈ added.inlineFragments)
    (h : held.selectionSet.direct.Clash s.selectionSet.direct) : d.Clash added := by
  obtain ⟨chain, key, shape, shape', differ, holds, offers⟩ := h
  obtain ⟨scope, last⟩ := Option.isSome_iff_exists.mp opened
  have opens : s.Opens scope s.deferral := by
    refine ⟨?_, rfl⟩
    rw [last]
    exact BEq.rfl
  have same := List.find?_some found
  have heldOpens := (InlineSpread.opens_congr same scope s.deferral).mpr opens
  exact ⟨.scope scope s.deferral :: chain, key, shape, shape', differ,
    ⟨held, List.mem_of_find?_eq_some found, heldOpens, holds⟩, ⟨s, adds, opens, offers⟩⟩

theorem clash_addScalar {f : ScalarField} (fails : d.addScalar f = .error e) :
    d.Clash (mk [.scalar f] [] []) := by
  unfold addScalar at fails
  split at fails
  · cases fails
  · cases fails
  · rename_i held found
    exact .of_fields (f := .scalar f) found (List.mem_singleton_self _) (by simp [Field.shape])

mutual

/-- Where merging fails, two fields clash. -/
theorem clash_merge (functional : ∀ id p q, located id p → located id q → p = q)
    (numbers : ∀ id id' p, located id p → located id' p → id = id') :
    ∀ (added d : DirectSelections) (path : FieldPath), d.Placed located path →
      added.Placed located path → added.Tidy typed known → d.merge added = .error e →
      d.Clash added
  | ⟨fields, inlines, spreads⟩, d, path, h, placed, tidy, fails => by
      obtain ⟨ofFields, ofInlines⟩ := placed.parts
      obtain ⟨tidyFields, tidyInlines⟩ := tidy.parts
      rw [merge] at fails
      rcases bind_eq_error.mp fails with first | ⟨d₁, first, fails⟩
      · have clash := clash_fields functional numbers fields d path h ofFields tidyFields first
        exact clash.mono fun _ _ _ holds => (holds_mk fields inlines spreads).mpr (Or.inl holds)
      have withFields := (merging_fields fields d d₁ first .done).merged functional h ofFields
      rcases bind_eq_error.mp fails with second | ⟨_, -, never⟩
      · have clash := clash_inlines functional numbers inlines d₁ path withFields.placed ofInlines
          tidyInlines second
        exact clash.of_later withFields.holds tidy fun _ _ _ => holds_mk fields inlines spreads
      · cases never

theorem clash_fields (functional : ∀ id p q, located id p → located id q → p = q)
    (numbers : ∀ id id' p, located id p → located id' p → id = id') :
    ∀ (fields : List Field) (d : DirectSelections) (path : FieldPath), d.Placed located path →
      (mk fields [] []).Placed located path → (mk fields [] []).Tidy typed known →
      d.mergeFields fields = .error e → d.Clash (mk fields [] [])
  | [], d, path, h, placed, tidy, fails => by
      rw [mergeFields] at fails
      cases fails
  | .scalar f :: rest, d, path, h, placed, tidy, fails => by
      rw [mergeFields] at fails
      rcases bind_eq_error.mp fails with here | ⟨d₁, adds, later⟩
      · exact (clash_addScalar here).mono fun _ _ _ holds => holds_fields_cons.mpr (Or.inl holds)
      · have first := (merging_addScalar adds .done).merged functional h (.oneField (by simp))
        have clash := clash_fields functional numbers rest d₁ path first.placed
          placed.fields_cons.2 tidy.fields_cons.2 later
        exact clash.of_later first.holds tidy fun _ _ _ => holds_fields_cons
  | .entity ⟨id, responseKey, type, node, inclusion, ⟨typeInfo, direct⟩⟩ :: rest, d, path, h,
      placed, tidy, fails => by
      obtain ⟨fits, laterPlaced⟩ := placed.fields_cons
      obtain ⟨located, below⟩ := fits _ rfl
      obtain ⟨fitsTidy, laterTidy⟩ := tidy.fields_cons
      obtain ⟨-, inTidy⟩ := fitsTidy _ rfl
      rw [mergeFields] at fails
      split at fails
      · rename_i new
        have first := merged_newField h (f := .entity ⟨id, responseKey, type, node, inclusion,
          ⟨typeInfo, direct⟩⟩) new fits
        have clash := clash_fields functional numbers rest _ path first.placed laterPlaced laterTidy
          fails
        exact clash.of_later first.holds tidy fun _ _ _ => holds_fields_cons
      · rename_i held found
        exact .of_fields (f := .entity ⟨id, responseKey, type, node, inclusion, ⟨typeInfo, direct⟩⟩)
          found (List.mem_cons_self ..) (by simp [Field.shape])
      · rename_i held found
        obtain ⟨heldLocated, heldPlaced⟩ := h.entity (List.mem_of_find?_eq_some found)
        split at fails
        · rename_i sameEntity
          rcases bind_eq_error.mp fails with inner | ⟨merging, inner, later⟩
          · -- The sets below the two fields clash; the fields themselves are at one place.
            have step := functional _ _ _ (beq_iff_eq.mp sameEntity ▸ heldLocated) located
            rw [step] at heldPlaced
            have clash := clash_merge functional numbers direct held.selectionSet.direct _ heldPlaced
              below inTidy inner
            exact .in_field (f := ⟨id, responseKey, type, node, inclusion, ⟨typeInfo, direct⟩⟩) found
              (List.mem_cons_self ..) clash
          · have first := merged_heldField functional h (e := ⟨id, responseKey, type, node, inclusion,
              ⟨typeInfo, direct⟩⟩) found located (beq_iff_eq.mp sameEntity) fun heldPlaced =>
              (merging_merge direct _ merging inner).merged functional heldPlaced below
            have clash := clash_fields functional numbers rest _ path first.placed laterPlaced
              laterTidy later
            exact clash.of_later first.holds tidy fun _ _ _ => holds_fields_cons
        · -- Fields of one key and type at one place would select on one entity.
          rename_i otherEntity
          refine .of_fields (f := .entity ⟨id, responseKey, type, node, inclusion,
            ⟨typeInfo, direct⟩⟩) found (List.mem_cons_self ..) fun sameShape => ?_
          have key : held.responseKey = responseKey := by
            simpa [Field.responseKey] using List.find?_some found
          have type : held.type = type := Option.some.inj sameShape
          rw [key, type] at heldLocated
          exact otherEntity (beq_iff_eq.mpr (numbers _ _ _ heldLocated located))

theorem clash_inlines (functional : ∀ id p q, located id p → located id q → p = q)
    (numbers : ∀ id id' p, located id p → located id' p → id = id') :
    ∀ (inlines : List InlineSpread) (d : DirectSelections) (path : FieldPath),
      d.Placed located path → (mk [] inlines []).Placed located path →
      (mk [] inlines []).Tidy typed known → d.mergeInlines inlines = .error e →
      d.Clash (mk [] inlines [])
  | [], d, path, h, placed, tidy, fails => by
      rw [mergeInlines] at fails
      cases fails
  | ⟨⟨typeInfo, direct⟩, deferral⟩ :: rest, d, path, h, placed, tidy, fails => by
      obtain ⟨inside, laterPlaced⟩ := placed.inlines_cons
      obtain ⟨⟨opened, inTidy⟩, laterTidy⟩ := tidy.inlines_cons
      rw [mergeInlines] at fails
      dsimp only at fails
      split at fails
      · rename_i new
        have first := merged_newInline h new inside
        have clash := clash_inlines functional numbers rest _ path first.placed laterPlaced laterTidy
          fails
        exact clash.of_later first.holds tidy fun _ _ _ => holds_inlines_cons
      · rename_i held found
        have heldPlaced := h.inline (List.mem_of_find?_eq_some found)
        rcases bind_eq_error.mp fails with inner | ⟨merging, inner, later⟩
        · have clash := clash_merge functional numbers direct held.selectionSet.direct path heldPlaced
            inside inTidy inner
          exact .in_scope (s := ⟨⟨typeInfo, direct⟩, deferral⟩) found opened (List.mem_cons_self ..)
            clash
        · have merged := (merging_merge direct _ merging inner).merged functional heldPlaced inside
          have first := merged_heldInline h found merged
          have clash := clash_inlines functional numbers rest _ path first.placed laterPlaced
            laterTidy later
          exact clash.of_later first.holds tidy fun _ _ _ => holds_inlines_cons

end

end Clashing

end DirectSelections
end SelectionGraph
