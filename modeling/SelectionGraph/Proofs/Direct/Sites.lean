import SelectionGraph.Proofs.Direct.Address
import SelectionGraph.Proofs.Direct.Merging
import SelectionGraph.Proofs.Entity.Tree

/-!
# Sites — what selection sets tell of the places they are at

Every selection set notes where it sits.  Sets are read by what is told of places: that a field of a
key, or a spread of a fragment, is included there under a condition.

* `TypeInfo.Alike`, `TypeInfo.Opens` — places on one entity and in one scope, or one scope further;
* `DirectSelections.Sited` — at any depth, sets and spreads are noted to sit where they do;
* `SelectionSet.Tells`     — something is told of an entry of the set, at any depth;
* `Telling`                — what depends on the place alone, and adds up with conditions;
* `Merging.adds`           — putting selections together adds up what they tell;
* `SelectionSet.Within`    — a set is inside another, through fields and inline fragments;
* `SelectionSet.tells_iff_within` — what is told is told of an entry of a set inside.
-/

namespace SelectionGraph

/-! ## Places -/

/-- Two places are on one entity and in one scope. -/
structure TypeInfo.Alike (i j : TypeInfo) : Prop where
  entity : i.entity = j.entity
  scope : (i.scopePath == j.scopePath) = true

/-- A place is one scope further than another. -/
def TypeInfo.Opens (outer inner : TypeInfo) : Prop :=
  ∃ scope isRootFieldType, inner.scopePath.last? = some scope
    ∧ inner.Alike (outer.enter scope isRootFieldType)

namespace TypeInfo

variable {i j k : TypeInfo}

theorem Alike.refl (i : TypeInfo) : i.Alike i :=
  ⟨rfl, BEq.rfl⟩

theorem Alike.symm (h : i.Alike j) : j.Alike i :=
  ⟨h.entity.symm, BEq.symm h.scope⟩

theorem Alike.trans (h : i.Alike j) (h' : j.Alike k) : i.Alike k :=
  ⟨h.entity.trans h'.entity, BEq.trans h.scope h'.scope⟩

theorem Alike.enter (h : i.Alike j) {s t : Scope} (same : (s == t) = true) (b c : Bool) :
    (i.enter s b).Alike (j.enter t c) := by
  have last : (ScopePath.mk [s] == ScopePath.mk [t]) = true := by
    change ([s] == [t]) = true
    simpa using same
  exact ⟨h.entity, ScopePath.concat_congr h.scope last⟩

theorem Opens.of_alike (h : i.Opens k) (alike : i.Alike j) : j.Opens k := by
  obtain ⟨scope, b, last, inside⟩ := h
  exact ⟨scope, b, last, inside.trans (alike.enter BEq.rfl b b)⟩

/-- Places one scope further than one place are alike, if that scope is the same. -/
theorem Opens.alike (h : i.Opens j) (h' : i.Opens k)
    (same : (j.scopePath.last? == k.scopePath.last?) = true) : j.Alike k := by
  obtain ⟨scope, b, last, inside⟩ := h
  obtain ⟨scope', b', last', inside'⟩ := h'
  rw [last, last', Option.some_beq_some] at same
  exact inside.trans (((Alike.refl i).enter same b b').trans inside'.symm)

end TypeInfo

namespace DirectSelections

/-! ## Sets that know their places -/

/-- The selections of the set at a place: composite fields select on their entities' own types, inline
fragments are one scope further, and spreads sit where the set does. -/
inductive Sited : TypeInfo → DirectSelections → Prop
  | intro {info : TypeInfo} {d : DirectSelections}
      (fields : ∀ e, .entity e ∈ d.fields → e.selectionSet.typeInfo.scopePath = .root)
      (belowFields : ∀ e, .entity e ∈ d.fields →
        Sited e.selectionSet.typeInfo e.selectionSet.direct)
      (inlines : ∀ s ∈ d.inlineFragments, info.Opens s.selectionSet.typeInfo)
      (belowInlines : ∀ s ∈ d.inlineFragments,
        Sited s.selectionSet.typeInfo s.selectionSet.direct)
      (spreads : ∀ s ∈ d.namedFragments, s.typeInfo.Alike info) : Sited info d

section Sited

variable {d : DirectSelections} {info info' : TypeInfo}

theorem Sited.nothing (info : TypeInfo) : empty.Sited info := by
  refine .intro ?_ ?_ ?_ ?_ ?_ <;> simp [empty]

theorem Sited.of_alike (h : d.Sited info) (alike : info.Alike info') : d.Sited info' := by
  obtain ⟨fields, belowFields, inlines, belowInlines, spreads⟩ := h
  exact .intro fields belowFields (fun s mem => (inlines s mem).of_alike alike) belowInlines
    fun s mem => (spreads s mem).trans alike

/-- A field is one of a sited set: its own set is on the entity's own type, and sited. -/
def FieldSited (f : Field) : Prop :=
  ∀ e, f = .entity e → e.selectionSet.typeInfo.scopePath = .root
    ∧ e.selectionSet.direct.Sited e.selectionSet.typeInfo

theorem Sited.field (h : d.Sited info) {f : Field} (mem : f ∈ d.fields) : FieldSited f := by
  obtain ⟨fields, belowFields, _, _, _⟩ := h
  rintro e rfl
  exact ⟨fields e mem, belowFields e mem⟩

theorem Sited.inline (h : d.Sited info) {s : InlineSpread} (mem : s ∈ d.inlineFragments) :
    info.Opens s.selectionSet.typeInfo
      ∧ s.selectionSet.direct.Sited s.selectionSet.typeInfo := by
  obtain ⟨_, _, inlines, belowInlines, _⟩ := h
  exact ⟨inlines s mem, belowInlines s mem⟩

theorem Sited.putField (h : d.Sited info) {new : Field} (fits : FieldSited new) :
    (d.putField new).Sited info := by
  have all : ∀ f ∈ (d.putField new).fields, FieldSited f :=
    Ordered.forall_upsert (fun _ => h.field) (fun _ _ _ => fits) fits
  obtain ⟨_, _, inlines, belowInlines, spreads⟩ := h
  exact .intro (fun e mem => (all _ mem e rfl).1) (fun e mem => (all _ mem e rfl).2) inlines
    belowInlines spreads

theorem Sited.putInline (h : d.Sited info) {new : InlineSpread}
    (opens : info.Opens new.selectionSet.typeInfo)
    (below : new.selectionSet.direct.Sited new.selectionSet.typeInfo) :
    (d.putInline new).Sited info := by
  obtain ⟨fields, belowFields, inlines, belowInlines, spreads⟩ := h
  exact .intro fields belowFields (Ordered.forall_upsert inlines (fun _ _ _ => opens) opens)
    (Ordered.forall_upsert belowInlines (fun _ _ _ => below) below) spreads

theorem Sited.addSpread (h : d.Sited info) {s : NamedSpread} (alike : s.typeInfo.Alike info) :
    (d.addSpread s).Sited info := by
  obtain ⟨fields, belowFields, inlines, belowInlines, spreads⟩ := h
  exact .intro fields belowFields inlines belowInlines
    (Ordered.forall_upsert spreads (fun t mem _ => spreads t mem) alike)

theorem Sited.fields_cons {f : Field} {fields : List Field} {inlines : List InlineSpread}
    {spreads : List NamedSpread} (h : (mk (f :: fields) inlines spreads).Sited info) :
    FieldSited f ∧ (mk fields inlines spreads).Sited info := by
  refine ⟨h.field (List.mem_cons_self ..), ?_⟩
  obtain ⟨rooted, belowFields, opens, belowInlines, alike⟩ := h
  exact .intro (fun e mem => rooted e (List.mem_cons_of_mem _ mem))
    (fun e mem => belowFields e (List.mem_cons_of_mem _ mem)) opens belowInlines alike

theorem Sited.inlines_cons {s : InlineSpread} {inlines : List InlineSpread}
    {spreads : List NamedSpread} (h : (mk [] (s :: inlines) spreads).Sited info) :
    info.Opens s.selectionSet.typeInfo
      ∧ s.selectionSet.direct.Sited s.selectionSet.typeInfo
      ∧ (mk [] inlines spreads).Sited info := by
  obtain ⟨rooted, belowFields, opens, belowInlines, alike⟩ := h
  obtain ⟨here, opens⟩ := List.forall_mem_cons.mp opens
  obtain ⟨below, belowInlines⟩ := List.forall_mem_cons.mp belowInlines
  exact ⟨here, below, .intro rooted belowFields opens belowInlines alike⟩

theorem Sited.spreads_cons {s : NamedSpread} {spreads : List NamedSpread}
    (h : (mk [] [] (s :: spreads)).Sited info) :
    s.typeInfo.Alike info ∧ (mk [] [] spreads).Sited info := by
  obtain ⟨rooted, belowFields, opens, belowInlines, alike⟩ := h
  obtain ⟨here, alike⟩ := List.forall_mem_cons.mp alike
  exact ⟨here, .intro rooted belowFields opens belowInlines alike⟩

theorem Sited.oneField {f : Field} (fits : FieldSited f) : (mk [f] [] []).Sited info :=
  Sited.putField (.nothing info) fits

theorem Sited.oneInline {s : InlineSpread} (opens : info.Opens s.selectionSet.typeInfo)
    (below : s.selectionSet.direct.Sited s.selectionSet.typeInfo) : (mk [] [s] []).Sited info :=
  Sited.putInline (.nothing info) opens below

end Sited

end DirectSelections

/-! ## What sets tell -/

theorem SelectionSet.eta (set : SelectionSet) : ⟨set.typeInfo, set.direct⟩ = set := by
  cases set
  rfl

/-- Something is told of an entry of a set, at any depth: of a field under its key, where its set is,
or of a spread under its fragment's name, where it is itself. -/
inductive SelectionSet.Tells (told : TypeInfo → Slot → Inclusion → Prop) : SelectionSet → Prop
  | field {set : SelectionSet} {f : Field} (mem : f ∈ set.direct.fields)
      (here : told set.typeInfo (.field f.responseKey) f.inclusion) : Tells told set
  | spread {set : SelectionSet} {s : NamedSpread} (mem : s ∈ set.direct.namedFragments)
      (here : told s.typeInfo (.fragment s.fragment.name) s.inclusion) : Tells told set
  | inField {set : SelectionSet} {e : EntityField} (mem : .entity e ∈ set.direct.fields)
      (below : Tells told e.selectionSet) : Tells told set
  | inInline {set : SelectionSet} {s : InlineSpread} (mem : s ∈ set.direct.inlineFragments)
      (below : Tells told s.selectionSet) : Tells told set

/-- What is told of a field, and below it. -/
def Field.Tells (told : TypeInfo → Slot → Inclusion → Prop) (info : TypeInfo) (f : Field) : Prop :=
  told info (.field f.responseKey) f.inclusion ∨ ∃ e, f = .entity e ∧ e.selectionSet.Tells told

/-- What is told of a spread. -/
def NamedSpread.Tells (told : TypeInfo → Slot → Inclusion → Prop) (s : NamedSpread) : Prop :=
  told s.typeInfo (.fragment s.fragment.name) s.inclusion

/-- What is told depends on the place alone, and what is told of a condition that two conditions are
merged into is told of one of them. -/
structure Telling (told : TypeInfo → Slot → Inclusion → Prop) : Prop where
  of_alike : ∀ {i j slot c}, i.Alike j → told i slot c → told j slot c
  merge : ∀ {i slot c c'}, told i slot (c.merge c') ↔ told i slot c ∨ told i slot c'

theorem Telling.alike_iff {told : TypeInfo → Slot → Inclusion → Prop} (telling : Telling told)
    {i j : TypeInfo} (alike : i.Alike j) {slot : Slot} {c : Inclusion} :
    told i slot c ↔ told j slot c :=
  ⟨telling.of_alike alike, telling.of_alike alike.symm⟩

namespace DirectSelections

variable {told : TypeInfo → Slot → Inclusion → Prop} {info : TypeInfo} {d : DirectSelections}

/-- A set tells what its fields, its inline fragments and its spreads tell. -/
theorem tells_iff : (SelectionSet.mk info d).Tells told
    ↔ (∃ f ∈ d.fields, f.Tells told info)
      ∨ (∃ s ∈ d.inlineFragments, s.selectionSet.Tells told)
      ∨ ∃ s ∈ d.namedFragments, s.Tells told := by
  constructor
  · intro h
    cases h with
    | field mem here => exact Or.inl ⟨_, mem, Or.inl here⟩
    | spread mem here => exact Or.inr (Or.inr ⟨_, mem, here⟩)
    | inField mem below => exact Or.inl ⟨_, mem, Or.inr ⟨_, rfl, below⟩⟩
    | inInline mem below => exact Or.inr (Or.inl ⟨_, mem, below⟩)
  · rintro (⟨f, mem, here | ⟨e, rfl, below⟩⟩ | ⟨s, mem, below⟩ | ⟨s, mem, here⟩)
    · exact .field mem here
    · exact .inField mem below
    · exact .inInline mem below
    · exact .spread mem here

theorem not_tells_nothing : ¬ (SelectionSet.mk info ⟨[], [], []⟩).Tells told := by
  simp [tells_iff]

theorem tells_fields_cons {f : Field} {fields : List Field} {inlines : List InlineSpread}
    {spreads : List NamedSpread} :
    (SelectionSet.mk info ⟨f :: fields, inlines, spreads⟩).Tells told
      ↔ f.Tells told info ∨ (SelectionSet.mk info ⟨fields, inlines, spreads⟩).Tells told := by
  rw [tells_iff, tells_iff, List.exists_mem_cons_iff, or_assoc]

theorem tells_inlines_cons {s : InlineSpread} {inlines : List InlineSpread}
    {spreads : List NamedSpread} :
    (SelectionSet.mk info ⟨[], s :: inlines, spreads⟩).Tells told
      ↔ s.selectionSet.Tells told ∨ (SelectionSet.mk info ⟨[], inlines, spreads⟩).Tells told := by
  simp [tells_iff, or_assoc]

theorem tells_spreads_cons {s : NamedSpread} {spreads : List NamedSpread} :
    (SelectionSet.mk info ⟨[], [], s :: spreads⟩).Tells told
      ↔ s.Tells told ∨ (SelectionSet.mk info ⟨[], [], spreads⟩).Tells told := by
  simp [tells_iff]

/-- A field that is put in the place of another adds what it tells beyond it. -/
theorem tells_putField {new f : Field} (key : new.responseKey = f.responseKey)
    (held : ∀ g, d.field? f.responseKey = some g →
      (new.Tells told info ↔ g.Tells told info ∨ f.Tells told info))
    (unheld : d.field? f.responseKey = none → new = f) :
    (SelectionSet.mk info (d.putField new)).Tells told
      ↔ (SelectionSet.mk info d).Tells told ∨ f.Tells told info := by
  have fields : (∃ g ∈ (d.putField new).fields, g.Tells told info)
      ↔ (∃ g ∈ d.fields, g.Tells told info) ∨ f.Tells told info :=
    exists_putField key held unheld
  rw [tells_iff, fields, tells_iff]
  exact or_right_comm

/-- An inline fragment that is put in the place of another adds what it tells beyond it. -/
theorem tells_putInline {new s : InlineSpread} (key : (new.key == s.key) = true)
    (held : ∀ t, d.inlineFragments.find? (fun t => t.key == s.key) = some t →
      (new.selectionSet.Tells told ↔ t.selectionSet.Tells told ∨ s.selectionSet.Tells told))
    (unheld : d.inlineFragments.find? (fun t => t.key == s.key) = none → new = s) :
    (SelectionSet.mk info (d.putInline new)).Tells told
      ↔ (SelectionSet.mk info d).Tells told ∨ s.selectionSet.Tells told := by
  have inlines : (∃ t ∈ (d.putInline new).inlineFragments, t.selectionSet.Tells told)
      ↔ (∃ t ∈ d.inlineFragments, t.selectionSet.Tells told) ∨ s.selectionSet.Tells told :=
    exists_putInline key held unheld
  rw [tells_iff, inlines, tells_iff]
  simp only [or_assoc, or_comm (a := s.selectionSet.Tells told)]
  rfl

/-- A spread that is added tells what it tells beyond the others, if it sits where they do. -/
theorem tells_addSpread (telling : Telling told) (sited : d.Sited info) {s : NamedSpread}
    (alike : s.typeInfo.Alike info) :
    (SelectionSet.mk info (d.addSpread s)).Tells told
      ↔ (SelectionSet.mk info d).Tells told ∨ s.Tells told := by
  obtain ⟨_, _, _, _, sites⟩ := sited
  have spreads : (∃ t ∈ (d.addSpread s).namedFragments, t.Tells told)
      ↔ (∃ t ∈ d.namedFragments, t.Tells told) ∨ s.Tells told := by
    refine Ordered.exists_upsert d.namedFragments ?_ fun _ => Iff.rfl
    intro t found
    have same : t.key = s.key := by simpa using List.find?_some found
    have name : t.fragment.name = s.fragment.name := congrArg Prod.fst same
    have here := (sites t (List.mem_of_find?_eq_some found)).trans alike.symm
    unfold NamedSpread.Tells
    dsimp only
    rw [telling.merge, name]
    exact or_congr_right ⟨telling.of_alike here, telling.of_alike here.symm⟩
  rw [tells_iff, spreads, tells_iff]
  simp only [or_assoc]
  rfl

/-- Selections tell the same in places that are alike. -/
theorem tells_alike (telling : Telling told) {i j : TypeInfo} (alike : i.Alike j) :
    (SelectionSet.mk i d).Tells told ↔ (SelectionSet.mk j d).Tells told := by
  simp only [tells_iff, Field.Tells, telling.alike_iff alike]

/-! ## Adding to what is told -/

/-- Selections come from those of the set at a place by adding something that is told. -/
structure Adds (told : TypeInfo → Slot → Inclusion → Prop) (info : TypeInfo) (d : DirectSelections)
    (more : Prop) (r : DirectSelections) : Prop where
  sited : r.Sited info
  tells : (SelectionSet.mk info r).Tells told ↔ (SelectionSet.mk info d).Tells told ∨ more

theorem Adds.trans {d₁ r : DirectSelections} {more later : Prop} (first : Adds told info d more d₁)
    (second : Adds told info d₁ later r) : Adds told info d (more ∨ later) r :=
  ⟨second.sited, by rw [second.tells, first.tells, or_assoc]⟩

theorem Adds.congr {r : DirectSelections} {more more' : Prop} (h : Adds told info d more r)
    (same : more ↔ more') : Adds told info d more' r :=
  ⟨h.sited, h.tells.trans (or_congr_right same)⟩

theorem Sited.adds_nothing (h : d.Sited info) {never : Prop} (no : ¬ never) :
    Adds told info d never d :=
  ⟨h, (or_iff_left no).symm⟩

/-- What is added to nothing tells nothing else. -/
theorem Adds.of_empty {r : DirectSelections} {more : Prop} (h : Adds told info empty more r) :
    (SelectionSet.mk info r).Tells told ↔ more :=
  h.tells.trans (or_iff_right not_tells_nothing)

theorem adds_newField (sited : d.Sited info) {f : Field} (fits : FieldSited f)
    (new : d.field? f.responseKey = none) : Adds told info d (f.Tells told info) (d.putField f) := by
  refine ⟨sited.putField fits, tells_putField rfl ?_ fun _ => rfl⟩
  intro g found
  cases new.symm.trans found

/-- Fields of leaf type that are merged tell what both tell. -/
theorem adds_heldScalar (telling : Telling told) (sited : d.Sited info) {held f : ScalarField}
    (found : d.field? f.responseKey = some (.scalar held)) :
    Adds told info d ((Field.scalar f).Tells told info)
      (d.putField (.scalar { held with inclusion := held.inclusion.merge f.inclusion })) := by
  have key : (Field.scalar held).responseKey = f.responseKey := by
    simpa using List.find?_some found
  refine ⟨sited.putField (by rintro e ⟨⟩), tells_putField (f := .scalar f) key ?_ ?_⟩
  · intro g found'
    cases found.symm.trans found'
    have merged : told info (.field held.responseKey) (held.inclusion.merge f.inclusion)
        ↔ told info (.field held.responseKey) held.inclusion
          ∨ told info (.field f.responseKey) f.inclusion := by
      rw [telling.merge, show held.responseKey = f.responseKey from key]
    simp only [Field.Tells, reduceCtorEq, false_and, exists_false, or_false]
    exact merged
  · intro none
    cases found.symm.trans none

/-- Fields that select on one entity tell, when they are merged, what both tell. -/
theorem adds_heldEntity (telling : Telling told) (sited : d.Sited info) {held e : EntityField}
    {below : DirectSelections} (found : d.field? e.responseKey = some (.entity held))
    (inside : Adds told held.selectionSet.typeInfo held.selectionSet.direct
      (e.selectionSet.Tells told) below) :
    Adds told info d ((Field.entity e).Tells told info) (d.putField (.entity { held with
      inclusion := held.inclusion.merge e.inclusion
      selectionSet := { held.selectionSet with direct := below } })) := by
  have key : (Field.entity held).responseKey = e.responseKey := by
    simpa using List.find?_some found
  obtain ⟨root, -⟩ := sited.field (List.mem_of_find?_eq_some found) held rfl
  refine ⟨sited.putField (by rintro _ ⟨⟩; exact ⟨root, inside.sited⟩),
    tells_putField (f := .entity e) key ?_ ?_⟩
  · intro g found'
    cases found.symm.trans found'
    have merged : told info (.field held.responseKey) (held.inclusion.merge e.inclusion)
        ↔ told info (.field held.responseKey) held.inclusion
          ∨ told info (.field e.responseKey) e.inclusion := by
      rw [telling.merge, show held.responseKey = e.responseKey from key]
    simp only [Field.Tells, Field.entity.injEq, exists_eq_left', inside.tells, SelectionSet.eta]
    exact (or_congr_left merged).trans or_or_or_comm
  · intro none
    cases found.symm.trans none

theorem adds_newInline (sited : d.Sited info) {s : InlineSpread}
    (opens : info.Opens s.selectionSet.typeInfo)
    (below : s.selectionSet.direct.Sited s.selectionSet.typeInfo)
    (new : (d.inlineFragments.find? fun t => t.key == s.key) = none) :
    Adds told info d (s.selectionSet.Tells told) (d.putInline s) := by
  refine ⟨sited.putInline opens below, tells_putInline (InlineSpread.key_refl s) ?_ fun _ => rfl⟩
  intro t found
  cases new.symm.trans found

/-- Inline fragments of one key tell, when they are merged, what both tell. -/
theorem adds_heldInline (sited : d.Sited info) {held s : InlineSpread} {below : DirectSelections}
    (found : (d.inlineFragments.find? fun t => t.key == s.key) = some held)
    (inside : Adds told held.selectionSet.typeInfo held.selectionSet.direct
      (s.selectionSet.Tells told) below) :
    Adds told info d (s.selectionSet.Tells told) (d.putInline { held with
      selectionSet := { held.selectionSet with direct := below } }) := by
  obtain ⟨opens, -⟩ := sited.inline (List.mem_of_find?_eq_some found)
  refine ⟨sited.putInline opens inside.sited, tells_putInline (List.find?_some found :) ?_ ?_⟩
  · intro t found'
    cases found.symm.trans found'
    rw [inside.tells, SelectionSet.eta]
  · intro none
    cases found.symm.trans none

theorem adds_spread (telling : Telling told) (sited : d.Sited info) {s : NamedSpread}
    (alike : s.typeInfo.Alike info) : Adds told info d (s.Tells told) (d.addSpread s) :=
  ⟨sited.addSpread alike, tells_addSpread telling sited alike⟩

/-- Putting selections together keeps them sited and adds up what they tell.  The induction is on how
they are put together: each selection is put in by itself, and then the others. -/
theorem Merging.adds (telling : Telling told) {added r : DirectSelections}
    (h : Merging d added r) : ∀ {info : TypeInfo}, d.Sited info → added.Sited info →
      Adds told info d ((SelectionSet.mk info added).Tells told) r := by
  induction h with
  | done =>
      intro info sited _
      exact sited.adds_nothing not_tells_nothing
  | newField new _ ih =>
      intro info sited adds
      obtain ⟨fits, later⟩ := adds.fields_cons
      have first : Adds told info _ _ _ := adds_newField sited fits new
      exact (first.trans (ih first.sited later)).congr tells_fields_cons.symm
  | heldScalar found _ ih =>
      intro info sited adds
      obtain ⟨-, later⟩ := adds.fields_cons
      have first := adds_heldScalar telling sited found
      exact (first.trans (ih first.sited later)).congr tells_fields_cons.symm
  | @heldEntity d r below held e fields inlines spreads found same _ _ ihInside ih =>
      intro info sited adds
      obtain ⟨fits, later⟩ := adds.fields_cons
      obtain ⟨root, inside⟩ := fits e rfl
      obtain ⟨heldRoot, heldInside⟩ := sited.field (List.mem_of_find?_eq_some found) held rfl
      -- Both fields select on one entity, and their sets are on its own type.
      have alike : e.selectionSet.typeInfo.Alike held.selectionSet.typeInfo :=
        ⟨same.symm, by rw [root, heldRoot]; exact BEq.rfl⟩
      have both := (ihInside heldInside (inside.of_alike alike)).congr
        (tells_alike telling alike).symm
      rw [SelectionSet.eta] at both
      have first := adds_heldEntity telling sited found both
      exact (first.trans (ih first.sited later)).congr tells_fields_cons.symm
  | newInline new _ ih =>
      intro info sited adds
      obtain ⟨opens, below, later⟩ := adds.inlines_cons
      have first : Adds told info _ _ _ := adds_newInline sited opens below new
      exact (first.trans (ih first.sited later)).congr tells_inlines_cons.symm
  | @heldInline d r below held s inlines spreads found _ _ ihInside ih =>
      intro info sited adds
      obtain ⟨opens, inside, later⟩ := adds.inlines_cons
      obtain ⟨heldOpens, heldInside⟩ := sited.inline (List.mem_of_find?_eq_some found)
      have last := (InlineSpread.key_beq_iff.mp (List.find?_some found :)).1
      -- Both fragments are one scope further than one place, and that scope is their key's.
      have alike : s.selectionSet.typeInfo.Alike held.selectionSet.typeInfo :=
        (heldOpens.alike opens last).symm
      have both := (ihInside heldInside (inside.of_alike alike)).congr
        (tells_alike telling alike).symm
      rw [SelectionSet.eta] at both
      have first := adds_heldInline sited found both
      exact (first.trans (ih first.sited later)).congr tells_inlines_cons.symm
  | spread _ ih =>
      intro info sited adds
      obtain ⟨alike, later⟩ := adds.spreads_cons
      have first := adds_spread telling sited alike
      exact (first.trans (ih first.sited later)).congr tells_spreads_cons.symm

theorem adds_field (telling : Telling told) (sited : d.Sited info) {f : Field} (fits : FieldSited f)
    {r : DirectSelections} (added : d.addField f = .ok r) :
    Adds told info d (f.Tells told info) r := by
  refine ((merging_addField added).adds telling sited (.oneField fits)).congr ?_
  rw [tells_fields_cons]
  exact or_iff_left not_tells_nothing

theorem adds_inline (telling : Telling told) (sited : d.Sited info) {s : InlineSpread}
    (opens : info.Opens s.selectionSet.typeInfo)
    (below : s.selectionSet.direct.Sited s.selectionSet.typeInfo) {r : DirectSelections}
    (added : d.addInline s = .ok r) : Adds told info d (s.selectionSet.Tells told) r := by
  refine ((merging_addInline added).adds telling sited (.oneInline opens below)).congr ?_
  rw [tells_inlines_cons]
  exact or_iff_left not_tells_nothing

end DirectSelections

/-! ## Sets inside a set -/

/-- A selection set is inside another, at any depth: its own, that of a field that selects on an
entity, or that of an inline fragment. -/
inductive SelectionSet.Within (outer : SelectionSet) : SelectionSet → Prop
  | self : Within outer outer
  | field {set : SelectionSet} {e : EntityField} (within : Within outer set)
      (mem : .entity e ∈ set.direct.fields) : Within outer e.selectionSet
  | inline {set : SelectionSet} {s : InlineSpread} (within : Within outer set)
      (mem : s ∈ set.direct.inlineFragments) : Within outer s.selectionSet

theorem DirectSelections.Tidy.within {typed : TypeInfo → Prop} {known : FragmentHandle → Prop}
    {outer set : SelectionSet} (h : outer.direct.Tidy typed known) (within : outer.Within set) :
    set.direct.Tidy typed known := by
  induction within with
  | self => exact h
  | field _ mem ih => exact (ih.entity mem).2
  | inline _ mem ih => exact (ih.inline mem).2

theorem SelectionSet.Within.tells {told : TypeInfo → Slot → Inclusion → Prop}
    {outer set : SelectionSet} (within : outer.Within set) (h : set.Tells told) :
    outer.Tells told := by
  induction within with
  | self => exact h
  | field _ mem ih => exact ih (.inField mem h)
  | inline _ mem ih => exact ih (.inInline mem h)

theorem SelectionSet.Within.trans {outer set inner : SelectionSet} (h : outer.Within set)
    (h' : set.Within inner) : outer.Within inner := by
  induction h' with
  | self => exact h
  | field _ mem ih => exact .field ih mem
  | inline _ mem ih => exact .inline ih mem

/-- Sets inside a set that is sited are sited. -/
theorem SelectionSet.Within.sited {outer set : SelectionSet} (within : outer.Within set)
    (sited : outer.direct.Sited outer.typeInfo) : set.direct.Sited set.typeInfo := by
  induction within with
  | self => exact sited
  | field _ mem ih => exact (ih.field mem _ rfl).2
  | inline _ mem ih => exact (ih.inline mem).2

/-- What a set tells is told of an entry of a set inside it. -/
theorem SelectionSet.tells_iff_within {told : TypeInfo → Slot → Inclusion → Prop}
    {outer : SelectionSet} : outer.Tells told ↔ ∃ set, outer.Within set
      ∧ ((∃ f ∈ set.direct.fields, told set.typeInfo (.field f.responseKey) f.inclusion)
        ∨ ∃ s ∈ set.direct.namedFragments, s.Tells told) := by
  constructor
  · intro h
    induction h with
    | field mem here => exact ⟨_, .self, Or.inl ⟨_, mem, here⟩⟩
    | spread mem here => exact ⟨_, .self, Or.inr ⟨_, mem, here⟩⟩
    | inField mem _ ih =>
        obtain ⟨set, within, tells⟩ := ih
        exact ⟨set, (SelectionSet.Within.field .self mem).trans within, tells⟩
    | inInline mem _ ih =>
        obtain ⟨set, within, tells⟩ := ih
        exact ⟨set, (SelectionSet.Within.inline .self mem).trans within, tells⟩
  · rintro ⟨set, within, ⟨f, mem, here⟩ | ⟨s, mem, here⟩⟩
    · exact within.tells (.field mem here)
    · exact within.tells (.spread mem here)

end SelectionGraph
