import SelectionGraph.Proofs.Direct.Merging

/-!
# Address — direct selections read turn by turn

Inside a definition a selection is found by the turns that lead to it: into the field of a response
key, into the inline fragment of a scope, to the spread of a fragment.

* `Turn`                  — one turn; lists of turns are addresses;
* `Includes`              — the selection at an address is there, and is included itself;
* `Tidy`                  — the keys of each set do not repeat, at any depth;
* `Merging.merges`, `merges_addField`, `merges_addInline`, `merges_addSpread` — putting selections
  together keeps them tidy and adds up what they include.

Whether the selections on the way to an address are included plays no part in `Includes`: merging
adds up conditions at each address, and not along the way.
-/

namespace SelectionGraph

variable {σ : Assignment}

/-- A turn: into a field, with the type it selects on if there is one; into a scope; or to the spread
of a fragment. -/
inductive Turn
  | field (responseKey : Name) (type : Option Name)
  | scope (scope : Scope) (deferral : Deferral)
  | spread (fragment : Name) (deferral : Deferral)

/-- The type that a field selects on. -/
def Field.typeBelow : Field → Option Name
  | .scalar _ => none
  | .entity f => some f.selectionSet.typeInfo.rootType

/-- An inline fragment is the one that a turn leads into. -/
def InlineSpread.Opens (s : InlineSpread) (scope : Scope) (deferral : Deferral) : Prop :=
  (s.typeInfo.scopePath.last? == some scope) = true ∧ s.deferral = deferral

namespace InlineSpread

variable {s t : InlineSpread}

/-- Inline fragments of one key are opened by the same turns. -/
theorem opens_congr (h : (s.key == t.key) = true) (scope : Scope) (deferral : Deferral) :
    s.Opens scope deferral ↔ t.Opens scope deferral := by
  obtain ⟨last, same⟩ := key_beq_iff.mp h
  unfold Opens
  rw [same]
  exact and_congr_left fun _ =>
    ⟨Ordered.option_trans (Ordered.option_symm last), Ordered.option_trans last⟩

/-- Inline fragments that one turn leads into have the same key. -/
theorem key_of_opens {scope : Scope} {deferral : Deferral} (h : s.Opens scope deferral)
    (h' : t.Opens scope deferral) : (s.key == t.key) = true :=
  key_beq_iff.mpr ⟨Ordered.option_trans h.1 (Ordered.option_symm h'.1), h.2.trans h'.2.symm⟩

end InlineSpread

namespace DirectSelections

/-! ## Reading -/

/-- The selection at an address is there, and is included itself. -/
def Includes (σ : Assignment) : List Turn → DirectSelections → Prop
  | [], _ => False
  | .field key type :: rest, d =>
      ∃ f ∈ d.fields, f.responseKey = key ∧ f.typeBelow = type
        ∧ (rest = [] ∧ f.inclusion.holds σ = true
          ∨ ∃ e, f = .entity e ∧ Includes σ rest e.selectionSet.direct)
  | .scope scope deferral :: rest, d =>
      ∃ s ∈ d.inlineFragments, s.Opens scope deferral
        ∧ (rest = [] ∧ scope.holds σ = true ∨ Includes σ rest s.selectionSet.direct)
  | .spread name deferral :: rest, d =>
      ∃ s ∈ d.namedFragments, s.key = (name, deferral) ∧ rest = [] ∧ s.inclusion.holds σ = true

end DirectSelections

/-- A field takes the rest of an address, after the turn into it. -/
def Field.Takes (σ : Assignment) (type : Option Name) (rest : List Turn) (f : Field) : Prop :=
  f.typeBelow = type ∧ (rest = [] ∧ f.inclusion.holds σ = true
    ∨ ∃ e, f = .entity e ∧ e.selectionSet.direct.Includes σ rest)

/-- An inline fragment takes the rest of an address, after the turn into it. -/
def InlineSpread.Takes (σ : Assignment) (scope : Scope) (rest : List Turn) (s : InlineSpread) :
    Prop :=
  rest = [] ∧ scope.holds σ = true ∨ s.selectionSet.direct.Includes σ rest

namespace DirectSelections

theorem includes_field {d : DirectSelections} {key : Name} {type : Option Name}
    {rest : List Turn} :
    d.Includes σ (.field key type :: rest)
      ↔ ∃ f ∈ d.fields, f.responseKey = key ∧ f.Takes σ type rest :=
  Iff.rfl

theorem includes_scope {d : DirectSelections} {scope : Scope} {deferral : Deferral}
    {rest : List Turn} :
    d.Includes σ (.scope scope deferral :: rest)
      ↔ ∃ s ∈ d.inlineFragments, s.Opens scope deferral ∧ s.Takes σ scope rest :=
  Iff.rfl

theorem not_includes_empty (address : List Turn) : ¬ empty.Includes σ address := by
  rcases address with _ | ⟨_ | _ | _, rest⟩ <;> simp [Includes, empty]

/-- What is included is the first selection, or below it, or is included by the others. -/
theorem includes_fields_cons {f : Field} {fields : List Field} {inlines : List InlineSpread}
    {spreads : List NamedSpread} (address : List Turn) :
    (mk (f :: fields) inlines spreads).Includes σ address
      ↔ (mk [f] [] []).Includes σ address ∨ (mk fields inlines spreads).Includes σ address := by
  rcases address with _ | ⟨_ | _ | _, rest⟩ <;> simp [Includes]

theorem includes_inlines_cons {s : InlineSpread} {inlines : List InlineSpread}
    {spreads : List NamedSpread} (address : List Turn) :
    (mk [] (s :: inlines) spreads).Includes σ address
      ↔ (mk [] [s] []).Includes σ address ∨ (mk [] inlines spreads).Includes σ address := by
  rcases address with _ | ⟨_ | _ | _, rest⟩ <;> simp [Includes]

theorem includes_spreads_cons {s : NamedSpread} {spreads : List NamedSpread} (address : List Turn) :
    (mk [] [] (s :: spreads)).Includes σ address
      ↔ (mk [] [] [s]).Includes σ address ∨ (mk [] [] spreads).Includes σ address := by
  rcases address with _ | ⟨_ | _ | _, rest⟩ <;> simp [Includes]

/-! ## Keys -/

/-- Keys do not repeat, at any depth; every inline fragment is in a scope.  The places of composite
fields and the fragments that are spread have given properties. -/
inductive Tidy (typed : TypeInfo → Prop) (known : FragmentHandle → Prop) : DirectSelections → Prop
  | intro {d : DirectSelections}
      (fieldKeys : d.fields.Pairwise fun f g => f.responseKey ≠ g.responseKey)
      (scopeKeys : d.inlineFragments.Pairwise fun s t => (s.key == t.key) = false)
      (spreadKeys : d.namedFragments.Pairwise fun s t => s.key ≠ t.key)
      (fieldsTyped : ∀ e, .entity e ∈ d.fields → typed e.selectionSet.typeInfo)
      (belowFields : ∀ e, .entity e ∈ d.fields → Tidy typed known e.selectionSet.direct)
      (opened : ∀ s ∈ d.inlineFragments, s.typeInfo.scopePath.last?.isSome = true)
      (belowScopes : ∀ s ∈ d.inlineFragments, Tidy typed known s.selectionSet.direct)
      (spreadsKnown : ∀ s ∈ d.namedFragments, known s.fragment) : Tidy typed known d

section Put

variable {typed : TypeInfo → Prop} {known : FragmentHandle → Prop} {d : DirectSelections}

theorem Tidy.nothing : DirectSelections.empty.Tidy typed known := by
  refine .intro .nil .nil .nil ?_ ?_ ?_ ?_ ?_ <;> simp [DirectSelections.empty]

theorem Tidy.entity (h : d.Tidy typed known) {e : EntityField} (mem : .entity e ∈ d.fields) :
    typed e.selectionSet.typeInfo ∧ e.selectionSet.direct.Tidy typed known := by
  obtain ⟨_, _, _, fieldsTyped, belowFields, _, _, _⟩ := h
  exact ⟨fieldsTyped e mem, belowFields e mem⟩

theorem Tidy.inline (h : d.Tidy typed known) {s : InlineSpread} (mem : s ∈ d.inlineFragments) :
    s.typeInfo.scopePath.last?.isSome = true ∧ s.selectionSet.direct.Tidy typed known := by
  obtain ⟨_, _, _, _, _, opened, belowScopes, _⟩ := h
  exact ⟨opened s mem, belowScopes s mem⟩

theorem Tidy.putField (h : d.Tidy typed known) {new : Field}
    (fits : ∀ e, new = .entity e →
      typed e.selectionSet.typeInfo ∧ e.selectionSet.direct.Tidy typed known) :
    (d.putField new).Tidy typed known := by
  obtain ⟨fieldKeys, scopeKeys, spreadKeys, fieldsTyped, belowFields, opened, belowScopes, all⟩ := h
  -- Scalar fields have nothing to show, so both properties of composite ones are shown of all fields.
  have entities : ∀ f ∈ (d.putField new).fields, ∀ e, f = .entity e →
      typed e.selectionSet.typeInfo ∧ e.selectionSet.direct.Tidy typed known := by
    refine Ordered.forall_upsert ?_ (fun _ _ _ => fits) fits
    rintro _ mem e rfl
    exact ⟨fieldsTyped e mem, belowFields e mem⟩
  refine .intro ?_ scopeKeys spreadKeys (fun e mem => (entities _ mem e rfl).1)
    (fun e mem => (entities _ mem e rfl).2) opened belowScopes all
  refine Ordered.pairwise_upsert fieldKeys ?_ ?_ ?_
  · intro f g wanted ne
    exact (beq_iff_eq.mp wanted) ▸ ne
  · intro f g wanted ne
    exact (beq_iff_eq.mp wanted) ▸ ne
  · intro f other
    simpa using other

theorem Tidy.putInline (h : d.Tidy typed known) {new : InlineSpread}
    (isOpened : new.typeInfo.scopePath.last?.isSome = true)
    (below : new.selectionSet.direct.Tidy typed known) : (d.putInline new).Tidy typed known := by
  obtain ⟨fieldKeys, scopeKeys, spreadKeys, fieldsTyped, belowFields, opened, belowScopes, all⟩ := h
  refine .intro fieldKeys ?_ spreadKeys fieldsTyped belowFields
    (Ordered.forall_upsert opened (fun _ _ _ => isOpened) isOpened)
    (Ordered.forall_upsert belowScopes (fun _ _ _ => below) below) all
  refine Ordered.pairwise_upsert scopeKeys ?_ ?_ ?_
  · intro s t wanted apart
    rw [← Bool.not_eq_true] at apart ⊢
    exact fun same => apart (InlineSpread.key_trans wanted same)
  · intro s t wanted apart
    rw [← Bool.not_eq_true] at apart ⊢
    exact fun same => apart (InlineSpread.key_trans same (InlineSpread.key_symm wanted))
  · intro s other
    exact other

theorem Tidy.addSpread (h : d.Tidy typed known) {s : NamedSpread} (isKnown : known s.fragment) :
    (d.addSpread s).Tidy typed known := by
  obtain ⟨fieldKeys, scopeKeys, spreadKeys, fieldsTyped, belowFields, opened, belowScopes, all⟩ := h
  refine .intro fieldKeys scopeKeys ?_ fieldsTyped belowFields opened belowScopes
    (Ordered.forall_upsert all (fun t mem _ => all t mem) isKnown)
  refine Ordered.pairwise_upsert spreadKeys (fun _ _ _ ne => ne) (fun _ _ _ ne => ne) ?_
  intro t other
  simpa using other

theorem Tidy.oneField {f : Field}
    (fits : ∀ e, f = .entity e →
      typed e.selectionSet.typeInfo ∧ e.selectionSet.direct.Tidy typed known) :
    (mk [f] [] []).Tidy typed known :=
  Tidy.putField .nothing fits

theorem Tidy.oneInline {s : InlineSpread} (opened : s.typeInfo.scopePath.last?.isSome = true)
    (below : s.selectionSet.direct.Tidy typed known) : (mk [] [s] []).Tidy typed known :=
  Tidy.putInline .nothing opened below

theorem Tidy.field_unique (h : d.Tidy typed known) {f g : Field} (memF : f ∈ d.fields)
    (memG : g ∈ d.fields) (same : f.responseKey = g.responseKey) : f = g := by
  obtain ⟨fieldKeys, _, _, _, _, _, _, _⟩ := h
  refine Ordered.eq_of_apart (fun f => f.responseKey == g.responseKey) (fieldKeys.imp ?_) memF memG
    (beq_iff_eq.mpr same) (beq_self_eq_true _)
  intro a b ne wanted
  rw [beq_iff_eq] at wanted
  simpa [← wanted] using ne.symm

theorem Tidy.inline_unique (h : d.Tidy typed known) {s t : InlineSpread}
    (memS : s ∈ d.inlineFragments) (memT : t ∈ d.inlineFragments) (same : (s.key == t.key) = true) :
    s = t := by
  obtain ⟨_, scopeKeys, _, _, _, _, _, _⟩ := h
  refine Ordered.eq_of_apart (fun s => s.key == t.key) (scopeKeys.imp ?_) memS memT same
    (InlineSpread.key_refl t)
  intro a b apart wanted
  rw [← Bool.not_eq_true] at apart ⊢
  exact fun wanted' => apart (InlineSpread.key_trans wanted (InlineSpread.key_symm wanted'))

/-- A field that is put in the place of another adds what it takes beyond it. -/
theorem includes_putField {new f : Field} (key : new.responseKey = f.responseKey)
    (held : ∀ g, d.field? f.responseKey = some g → ∀ type rest,
      (new.Takes σ type rest ↔ g.Takes σ type rest ∨ f.Takes σ type rest))
    (unheld : d.field? f.responseKey = none → new = f) (address : List Turn) :
    (d.putField new).Includes σ address
      ↔ d.Includes σ address ∨ (mk [f] [] []).Includes σ address := by
  rcases address with _ | ⟨⟨key', type⟩ | ⟨scope, deferral⟩ | ⟨name, deferral⟩, rest⟩
  · simp [Includes]
  · simp only [includes_field, List.mem_singleton, exists_eq_left]
    refine exists_putField key (fun g found => ?_) unheld
    have same : g.responseKey = f.responseKey := by simpa using List.find?_some found
    rw [held g found, key, same]
    exact and_or_left
  · simp [Includes, DirectSelections.putField]
  · simp [Includes, DirectSelections.putField]

/-- An inline fragment that is put in the place of another adds what it takes beyond it. -/
theorem includes_putInline {new s : InlineSpread} (key : (new.key == s.key) = true)
    (held : ∀ t, d.inlineFragments.find? (fun t => t.key == s.key) = some t → ∀ scope rest,
      (new.Takes σ scope rest ↔ t.Takes σ scope rest ∨ s.Takes σ scope rest))
    (unheld : d.inlineFragments.find? (fun t => t.key == s.key) = none → new = s)
    (address : List Turn) :
    (d.putInline new).Includes σ address
      ↔ d.Includes σ address ∨ (mk [] [s] []).Includes σ address := by
  rcases address with _ | ⟨⟨name, type⟩ | ⟨scope, deferral⟩ | ⟨name, deferral⟩, rest⟩
  · simp [Includes]
  · simp [Includes, DirectSelections.putInline]
  · simp only [includes_scope, List.mem_singleton, exists_eq_left]
    refine exists_putInline key (fun t found => ?_) unheld
    have wanted := List.find?_some found
    rw [held t found, InlineSpread.opens_congr wanted, InlineSpread.opens_congr key]
    exact and_or_left
  · simp [Includes, DirectSelections.putInline]

theorem includes_addSpread (s : NamedSpread) (address : List Turn) :
    (d.addSpread s).Includes σ address
      ↔ d.Includes σ address ∨ (mk [] [] [s]).Includes σ address := by
  rcases address with _ | ⟨⟨name, type⟩ | ⟨scope, deferral⟩ | ⟨name, deferral⟩, rest⟩
  · simp [Includes]
  · simp [Includes, DirectSelections.addSpread]
  · simp [Includes, DirectSelections.addSpread]
  · simp only [Includes, List.mem_singleton, exists_eq_left]
    refine Ordered.exists_upsert d.namedFragments ?_ ?_
    · intro t found
      have same : t.key = s.key := by simpa using List.find?_some found
      change t.key = _ ∧ _ ∧ (t.inclusion.merge s.inclusion).holds σ = true ↔ _
      rw [Inclusion.holds_merge, Bool.or_eq_true, same, and_or_left, and_or_left]
    · intro _
      rfl

end Put

/-! ## Merging -/

/-- Direct selections come from others by adding what some include. -/
structure Merges (typed : TypeInfo → Prop) (known : FragmentHandle → Prop)
    (d added r : DirectSelections) : Prop where
  tidy : r.Tidy typed known
  includes : ∀ σ address, r.Includes σ address ↔ d.Includes σ address ∨ added.Includes σ address

section Merge

variable {typed : TypeInfo → Prop} {known : FragmentHandle → Prop} {d added r : DirectSelections}

theorem Merges.trans {d₁ a₁ a₂ r₁ : DirectSelections} (first : Merges typed known d a₁ d₁)
    (second : Merges typed known d₁ a₂ r₁)
    (both : ∀ σ address, added.Includes σ address ↔ a₁.Includes σ address ∨ a₂.Includes σ address) :
    Merges typed known d added r₁ where
  tidy := second.tidy
  includes σ address := by rw [second.includes, first.includes, both, or_assoc]

theorem Tidy.merges_empty (h : d.Tidy typed known) : Merges typed known d empty d :=
  ⟨h, fun _ address => (or_iff_left (not_includes_empty address)).symm⟩

theorem Tidy.fields_cons {f : Field} {fields : List Field} {inlines : List InlineSpread}
    {spreads : List NamedSpread} (h : (mk (f :: fields) inlines spreads).Tidy typed known) :
    (∀ e, f = .entity e →
        typed e.selectionSet.typeInfo ∧ e.selectionSet.direct.Tidy typed known)
      ∧ (mk fields inlines spreads).Tidy typed known := by
  refine ⟨?_, ?_⟩
  · rintro e rfl
    exact h.entity (List.mem_cons_self ..)
  · obtain ⟨fieldKeys, scopeKeys, spreadKeys, fieldsTyped, belowFields, opened, belowScopes, all⟩ := h
    exact .intro (List.Pairwise.of_cons fieldKeys) scopeKeys spreadKeys
      (fun e mem => fieldsTyped e (List.mem_cons_of_mem _ mem))
      (fun e mem => belowFields e (List.mem_cons_of_mem _ mem)) opened belowScopes all

theorem Tidy.inlines_cons {s : InlineSpread} {inlines : List InlineSpread}
    {spreads : List NamedSpread} (h : (mk [] (s :: inlines) spreads).Tidy typed known) :
    (s.typeInfo.scopePath.last?.isSome = true ∧ s.selectionSet.direct.Tidy typed known)
      ∧ (mk [] inlines spreads).Tidy typed known := by
  refine ⟨h.inline (List.mem_cons_self ..), ?_⟩
  obtain ⟨fieldKeys, scopeKeys, spreadKeys, fieldsTyped, belowFields, opened, belowScopes, all⟩ := h
  exact .intro fieldKeys (List.Pairwise.of_cons scopeKeys) spreadKeys fieldsTyped belowFields
    (fun t mem => opened t (List.mem_cons_of_mem _ mem))
    (fun t mem => belowScopes t (List.mem_cons_of_mem _ mem)) all

theorem Tidy.spreads_cons {s : NamedSpread} {spreads : List NamedSpread}
    (h : (mk [] [] (s :: spreads)).Tidy typed known) :
    known s.fragment ∧ (mk [] [] spreads).Tidy typed known := by
  obtain ⟨fieldKeys, scopeKeys, spreadKeys, fieldsTyped, belowFields, opened, belowScopes, all⟩ := h
  obtain ⟨here, all⟩ := List.forall_mem_cons.mp all
  exact ⟨here, .intro fieldKeys scopeKeys (List.Pairwise.of_cons spreadKeys) fieldsTyped belowFields
    opened belowScopes all⟩

/-- The fields of a tidy set are tidy by themselves, and so are its inline fragments. -/
theorem Tidy.parts {fields : List Field} {inlines : List InlineSpread} {spreads : List NamedSpread}
    (h : (mk fields inlines spreads).Tidy typed known) :
    (mk fields [] []).Tidy typed known ∧ (mk [] inlines []).Tidy typed known := by
  obtain ⟨fieldKeys, scopeKeys, -, fieldsTyped, belowFields, opened, belowScopes, -⟩ := h
  exact ⟨.intro fieldKeys .nil .nil fieldsTyped belowFields (by simp) (by simp) (by simp),
    .intro .nil scopeKeys .nil (by simp) (by simp) opened belowScopes (by simp)⟩

theorem merges_addSpread (h : d.Tidy typed known) {s : NamedSpread} (isKnown : known s.fragment) :
    Merges typed known d (mk [] [] [s]) (d.addSpread s) :=
  ⟨h.addSpread isKnown, fun _ => includes_addSpread s⟩

theorem merges_newField (h : d.Tidy typed known) {f : Field} (new : d.field? f.responseKey = none)
    (fits : ∀ e, f = .entity e →
      typed e.selectionSet.typeInfo ∧ e.selectionSet.direct.Tidy typed known) :
    Merges typed known d (mk [f] [] []) (d.putField f) := by
  refine ⟨h.putField fits, fun σ => includes_putField rfl ?_ fun _ => rfl⟩
  intro g found
  cases new.symm.trans found

/-- A field of leaf type that is merged into the one of its key. -/
theorem merges_heldScalar (h : d.Tidy typed known) {held f : ScalarField}
    (found : d.field? f.responseKey = some (.scalar held)) :
    Merges typed known d (mk [.scalar f] [] [])
      (d.putField (.scalar { held with inclusion := held.inclusion.merge f.inclusion })) := by
  have key : (Field.scalar held).responseKey = f.responseKey := by
    simpa using List.find?_some found
  refine ⟨h.putField (by simp), fun σ => includes_putField key ?_ ?_⟩
  · intro g found' type rest
    cases found.symm.trans found'
    simp only [Field.Takes, Field.typeBelow, Field.inclusion, Inclusion.holds_merge,
      Bool.or_eq_true, reduceCtorEq, false_and, exists_false, or_false, and_or_left]
  · intro none
    cases found.symm.trans none

/-- An entity field that is merged into the one of its key. -/
theorem merges_heldField (h : d.Tidy typed known) {held e : EntityField} {below : DirectSelections}
    (found : d.field? e.responseKey = some (.entity held))
    (types : held.selectionSet.typeInfo.rootType = e.selectionSet.typeInfo.rootType)
    (inside : Merges typed known held.selectionSet.direct e.selectionSet.direct below) :
    Merges typed known d (mk [.entity e] [] []) (d.putField (.entity { held with
      inclusion := held.inclusion.merge e.inclusion
      selectionSet := { held.selectionSet with direct := below } })) := by
  obtain ⟨isTyped, -⟩ := h.entity (List.mem_of_find?_eq_some found)
  have key : (Field.entity held).responseKey = e.responseKey := by
    simpa using List.find?_some found
  refine ⟨h.putField ?_, fun σ => includes_putField key ?_ ?_⟩
  · rintro _ ⟨⟩
    exact ⟨isTyped, inside.tidy⟩
  · intro g found' type rest
    cases found.symm.trans found'
    simp only [Field.Takes, Field.typeBelow, Field.inclusion, types, Inclusion.holds_merge,
      Bool.or_eq_true, Field.entity.injEq, exists_eq_left', inside.includes]
    rw [← and_or_left, or_or_or_comm, ← and_or_left]
  · intro none
    cases found.symm.trans none

theorem merges_newInline (h : d.Tidy typed known) {s : InlineSpread}
    (new : (d.inlineFragments.find? fun t => t.key == s.key) = none)
    (opened : s.typeInfo.scopePath.last?.isSome = true)
    (below : s.selectionSet.direct.Tidy typed known) :
    Merges typed known d (mk [] [s] []) (d.putInline s) := by
  refine ⟨h.putInline opened below, fun σ =>
    includes_putInline (InlineSpread.key_refl s) ?_ fun _ => rfl⟩
  intro t found
  cases new.symm.trans found

/-- An inline fragment that is merged into the one of its key. -/
theorem merges_heldInline (h : d.Tidy typed known) {held s : InlineSpread} {below : DirectSelections}
    (found : (d.inlineFragments.find? fun t => t.key == s.key) = some held)
    (inside : Merges typed known held.selectionSet.direct s.selectionSet.direct below) :
    Merges typed known d (mk [] [s] []) (d.putInline { held with
      selectionSet := { held.selectionSet with direct := below } }) := by
  obtain ⟨opened, -⟩ := h.inline (List.mem_of_find?_eq_some found)
  refine ⟨h.putInline opened inside.tidy, fun σ =>
    includes_putInline (List.find?_some found :) ?_ ?_⟩
  · intro t found' scope rest
    cases found.symm.trans found'
    simp only [InlineSpread.Takes, inside.includes]
    exact or_or_distrib_left
  · intro none
    cases found.symm.trans none

/-- Putting selections together keeps them tidy and adds up what they include, if places with the
same entity select on the same type.  The induction is on how they are put together: each selection
is put in by itself, and then the others. -/
theorem Merging.merges (h : Merging d added r)
    (agree : ∀ i j, typed i → typed j → i.entity = j.entity → i.rootType = j.rootType)
    (tidy : d.Tidy typed known) (addedTidy : added.Tidy typed known) :
    Merges typed known d added r := by
  induction h with
  | done => exact tidy.merges_empty
  | newField new _ ih =>
      obtain ⟨fits, later⟩ := addedTidy.fields_cons
      have first := merges_newField tidy new fits
      exact first.trans (ih first.tidy later) fun _ => includes_fields_cons
  | heldScalar found _ ih =>
      obtain ⟨-, later⟩ := addedTidy.fields_cons
      have first := merges_heldScalar tidy found
      exact first.trans (ih first.tidy later) fun _ => includes_fields_cons
  | heldEntity found same _ _ ihInside ih =>
      obtain ⟨fits, later⟩ := addedTidy.fields_cons
      obtain ⟨isTyped, below⟩ := fits _ rfl
      obtain ⟨heldTyped, heldBelow⟩ := tidy.entity (List.mem_of_find?_eq_some found)
      -- Fields of one key are merged only if they select on one entity, hence on one type.
      have types := agree _ _ heldTyped isTyped same
      have first := merges_heldField tidy found types (ihInside heldBelow below)
      exact first.trans (ih first.tidy later) fun _ => includes_fields_cons
  | newInline new _ ih =>
      obtain ⟨⟨opened, below⟩, later⟩ := addedTidy.inlines_cons
      have first := merges_newInline tidy new opened below
      exact first.trans (ih first.tidy later) fun _ => includes_inlines_cons
  | heldInline found _ _ ihInside ih =>
      obtain ⟨⟨-, below⟩, later⟩ := addedTidy.inlines_cons
      obtain ⟨-, heldBelow⟩ := tidy.inline (List.mem_of_find?_eq_some found)
      have first := merges_heldInline tidy found (ihInside heldBelow below)
      exact first.trans (ih first.tidy later) fun _ => includes_inlines_cons
  | spread _ ih =>
      obtain ⟨isKnown, later⟩ := addedTidy.spreads_cons
      have first := merges_addSpread tidy isKnown
      exact first.trans (ih first.tidy later) fun _ => includes_spreads_cons

theorem merges_addField
    (agree : ∀ i j, typed i → typed j → i.entity = j.entity → i.rootType = j.rootType)
    (h : d.Tidy typed known) {f : Field} (fits : ∀ e, f = .entity e →
      typed e.selectionSet.typeInfo ∧ e.selectionSet.direct.Tidy typed known)
    (added : d.addField f = .ok r) : Merges typed known d (mk [f] [] []) r :=
  (merging_addField added).merges agree h (.oneField fits)

theorem merges_addInline
    (agree : ∀ i j, typed i → typed j → i.entity = j.entity → i.rootType = j.rootType)
    (h : d.Tidy typed known) {s : InlineSpread}
    (opened : s.typeInfo.scopePath.last?.isSome = true)
    (below : s.selectionSet.direct.Tidy typed known) (added : d.addInline s = .ok r) :
    Merges typed known d (mk [] [s] []) r :=
  (merging_addInline added).merges agree h (.oneInline opened below)

end Merge

end DirectSelections
end SelectionGraph
