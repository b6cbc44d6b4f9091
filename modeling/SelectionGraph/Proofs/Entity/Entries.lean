import SelectionGraph.Proofs.Document.Visited
import SelectionGraph.Proofs.Entity.Inlining

/-!
# Entries — what a storage has, whatever the order it was put in

A storage is read by a property of inclusions, like a tree.  What each operation adds to the reading
does not depend on what was there, so the reading of what a walk ends with depends only on what the
walk comes to.

* `EntityStorage.Reads`     — an entity has an entry in a scope whose inclusion has a property;
* `reads_mergeFragmentEntities` — what merging a fragment adds to the reading;
* `Walked.reads_entries`    — what a walk adds: what it meets without entering fragments, and the
  entries of the fragments that it finds built;
* `EntityStorage.SameEntries` — two storages are read alike, so that their entries have equal
  inclusions.
-/

namespace SelectionGraph

variable {τ : Inclusion → Prop}

/-! ## Storages -/

namespace EntityStorage

variable {s s' : EntityStorage} {path : FieldPath} {scope : ScopePath} {slot : Slot}

/-- The entity at a path has an entry in a scope whose inclusion has a property. -/
def Reads (τ : Inclusion → Prop) (s : EntityStorage) (path : FieldPath) (scope : ScopePath)
    (slot : Slot) : Prop :=
  ∃ e ∈ s.entities, e.location.path = path ∧ e.tree.Reads τ scope slot

theorem not_reads_start {source : SourceDefinition} : ¬ (start source).Reads τ path scope slot := by
  simp [Reads, start, SelectionTree.not_reads_empty]

theorem reads_entityAt {location : Location} {types : TypePath} {e : Entity}
    (found : s.entityAt location types = (e, s')) :
    s'.Reads τ path scope slot ↔ s.Reads τ path scope slot := by
  unfold entityAt at found
  split at found
  · cases found
    rfl
  · cases found
    simp only [Reads, List.mem_append, List.mem_singleton, or_and_right, exists_or, exists_eq_left,
      SelectionTree.not_reads_empty, and_false, or_false]

theorem reads_entityForField {enclosing id : EntityId} {component : PathComponent}
    (found : s.entityForField enclosing component = .ok (id, s')) :
    s'.Reads τ path scope slot ↔ s.Reads τ path scope slot := by
  obtain ⟨e, -, result⟩ := bind_eq_ok.mp found
  cases result
  exact reads_entityAt rfl

/-- A change that is additive in the reading of a tree is additive in that of the storage. -/
theorem reads_modifyTree {id : EntityId} {entity : FieldPath} (located : s.pathOf? id = some entity)
    {change : SelectionTree → SelectionTree} {Q : Prop}
    (adds : ∀ t, (change t).Reads τ scope slot ↔ t.Reads τ scope slot ∨ Q) :
    (s.modifyTree id change).Reads τ path scope slot
      ↔ s.Reads τ path scope slot ∨ path = entity ∧ Q := by
  obtain ⟨e, get, rfl⟩ := pathOf?_eq_some_iff.mp located
  refine Ordered.exists_modify get ?_
  dsimp only
  rw [adds, and_or_left, eq_comm (a := path)]

/-- What one entity of a fragment has, as it is read from the site of a spread. -/
def BelowOne (τ : Inclusion → Prop) (d : Entity) (site : FieldPath) (target : ScopePath)
    (guard : Inclusion) (path : FieldPath) (scope : ScopePath) (slot : Slot) : Prop :=
  path = site.appendAll d.location.path.components
    ∧ ∃ below, ((innerScope target d.location.path).concat below == scope) = true
      ∧ d.tree.Reads (Inclusion.Under (innerGuard guard d.location.path) τ) below slot

/-- What a fragment has, as it is read from the site of a spread. -/
def Below (τ : Inclusion → Prop) (fragment : EntityStorage) (site : FieldPath) (target : ScopePath)
    (guard : Inclusion) (path : FieldPath) (scope : ScopePath) (slot : Slot) : Prop :=
  ∃ q below, path = site.appendAll q.components
    ∧ ((innerScope target q).concat below == scope) = true
    ∧ fragment.Reads (Inclusion.Under (innerGuard guard q) τ) q below slot

theorem below_iff {fragment : EntityStorage} {site : FieldPath} {target : ScopePath}
    {guard : Inclusion} : fragment.Below τ site target guard path scope slot
      ↔ ∃ d ∈ fragment.entities, BelowOne τ d site target guard path scope slot := by
  constructor
  · rintro ⟨_, below, at_, same, d, mem, rfl, read⟩
    exact ⟨d, mem, at_, below, same, read⟩
  · rintro ⟨d, mem, at_, below, same, read⟩
    exact ⟨d.location.path, below, at_, same, d, mem, rfl, read⟩

/-- One entity of a fragment adds what it has, below the site. -/
theorem reads_mergeEntity (additive : Inclusion.Additive τ) (wellFormed : s.WellFormed)
    {site added : Entity} {target : ScopePath} {guard : Inclusion} {fragmentRoot : Name}
    (source : site.location.source = s.source)
    (typedAdded : added.tree.typePath.toList = fragmentRoot :: added.location.path.types)
    (merged : s.mergeEntity site target guard added = .ok s') :
    s'.Reads τ path scope slot ↔ s.Reads τ path scope slot
      ∨ BelowOne τ added site.location.path target guard path scope slot := by
  obtain ⟨location, types, e, t, sourceL, pathL, -, found, rfl⟩ := mergeEntity_spec typedAdded merged
  obtain ⟨get, pathE⟩ := get?_entityAt wellFormed (sourceL.trans source) found
  have located := pathOf?_eq_some_iff.mpr ⟨e, get, pathE.trans pathL⟩
  rw [reads_modifyTree located fun t => SelectionTree.reads_mergeTree additive t _ _ _ scope slot,
    reads_entityAt found]
  rfl

/-- A fragment adds what it has, below the site. -/
theorem reads_mergeFragmentEntities (additive : Inclusion.Additive τ) (wellFormed : s.WellFormed)
    {fragment : EntityStorage} (wellFormedF : fragment.WellFormed) {id : EntityId} {site : FieldPath}
    (located : s.pathOf? id = some site) {target : ScopePath} {guard : Inclusion}
    (merged : s.mergeFragmentEntities id target guard fragment = .ok s') :
    s'.Reads τ path scope slot
      ↔ s.Reads τ path scope slot ∨ fragment.Below τ site target guard path scope slot := by
  obtain ⟨e, get, rfl⟩ := pathOf?_eq_some_iff.mp located
  rw [below_iff]
  refine mergeFragmentEntities_induction wellFormed wellFormedF get (P := fun earlier t =>
    t.Reads τ path scope slot ↔ s.Reads τ path scope slot
      ∨ ∃ d ∈ earlier, BelowOne τ d e.location.path target guard path scope slot) ?_ (by simp) merged
  intro earlier d t t' mem wellFormedT source one _ before
  rw [reads_mergeEntity additive wellFormedT source (wellFormedF.types d mem) one, before, or_assoc]
  simp only [List.mem_append, List.mem_singleton, or_and_right, exists_or, exists_eq_left]

end EntityStorage

/-! ## Walks -/

/-- The walk of selections from a place, without entering the fragments that are spread, meets a
selection: that of a document which defines none of them. -/
def MeetsOwn (view : SchemaView) : Place → List Selection → Place → Selection → Inclusion → Prop :=
  Meets view ⟨[], []⟩

/-- What is met without entering fragments is visited. -/
theorem MeetsOwn.visited {view : SchemaView} {p q : Place} {ss : List Selection} {s : Selection}
    {c : Inclusion} (h : MeetsOwn view p ss q s c) : Visited view ss s := by
  unfold MeetsOwn at h
  induction h with
  | here mem _ included => exact .here mem (Selection.not_skipped included)
  | field mem included isComposite _ ih =>
      exact .field mem (Selection.not_skipped included) isComposite ih
  | inline mem read scope _ ih =>
      have included := Inclusion.ofDirectives_of_verdict read
      rw [scope] at included
      exact .inline mem (Selection.not_skipped included) ih
  | spread _ _ defined => cases defined

/-- What a selection that is met at a place puts into a storage: an entry of its own, and if it is a
spread then the entries of its fragment. -/
def Puts (built : List NamedFragment) (τ : Inclusion → Prop) (q : Place) (t : Selection)
    (c : Inclusion) (path : FieldPath) (scope : ScopePath) (slot : Slot) : Prop :=
  (t.slot? = some slot ∧ path = q.entity ∧ (q.scope == scope) = true ∧ τ c)
    ∨ ∃ name directives f, t = .fragmentSpread name directives
      ∧ NamedFragment.find? built name = some f
      ∧ f.built.entities.Below τ q.entity (q.follow f.definition.typeCondition c).scope c path scope
        slot

section Walked

variable {view : SchemaView} {document : Document} {built : List NamedFragment}

/-- What is put by any of the selections that are met. -/
def PutsMet (built : List NamedFragment) (τ : Inclusion → Prop)
    (met : Place → Selection → Inclusion → Prop) (path : FieldPath) (scope : ScopePath)
    (slot : Slot) : Prop :=
  ∃ q t c, met q t c ∧ Puts built τ q t c path scope slot

/-- A spread is met itself. -/
theorem meetsOwn_spread {p q : Place} {name : Name} {directives : List Directive} {guard c : Inclusion}
    {t : Selection} (included : Inclusion.ofDirectives directives = .ok (some guard)) :
    MeetsOwn view p [.fragmentSpread name directives] q t c
      ↔ q = p ∧ t = .fragmentSpread name directives ∧ c = guard := by
  constructor
  · intro h
    cases h with
    | here mem slot read =>
        obtain rfl := List.mem_singleton.mp mem
        have same : Except.ok (some guard) = Except.ok (some c) := included.symm.trans read
        cases same
        exact ⟨rfl, rfl, rfl⟩
    | field mem => simp at mem
    | inline mem => simp at mem
    | spread _ _ defined => cases defined
  · rintro ⟨rfl, rfl, rfl⟩
    exact .here (List.mem_singleton_self _) rfl included

section PutsMet

variable {met met' : Place → Selection → Inclusion → Prop} {path : FieldPath} {scope : ScopePath}
  {slot : Slot}

theorem putsMet_congr (same : ∀ q t c, met q t c ↔ met' q t c) :
    PutsMet built τ met path scope slot ↔ PutsMet built τ met' path scope slot :=
  someMet_congr same

theorem putsMet_or : PutsMet built τ (fun q t c => met q t c ∨ met' q t c) path scope slot
    ↔ PutsMet built τ met path scope slot ∨ PutsMet built τ met' path scope slot :=
  someMet_or

theorem putsMet_one {p : Place} {s : Selection} {own : Inclusion} :
    PutsMet built τ (fun q t c => q = p ∧ t = s ∧ c = own) path scope slot
      ↔ Puts built τ p s own path scope slot :=
  someMet_one

theorem not_putsMet (none : ∀ q t c, ¬ met q t c) : ¬ PutsMet built τ met path scope slot :=
  not_someMet none

end PutsMet

/-- A field puts an entry under its response key. -/
theorem puts_field {q : Place} {f : FieldSelection} {c : Inclusion} {path : FieldPath}
    {scope : ScopePath} {slot : Slot} : Puts built τ q (.field f) c path scope slot
      ↔ path = q.entity ∧ (q.scope == scope) = true ∧ slot = .field f.responseKey ∧ τ c := by
  simp only [Puts, Selection.slot?, reduceCtorEq, false_and, exists_false, or_false,
    Option.some.injEq, eq_comm (a := slot)]
  exact and_left_comm.trans (and_congr_right fun _ => and_left_comm)

/-- A spread puts an entry under the name of its fragment, and the entries of the fragment. -/
theorem puts_spread {q : Place} {name : Name} {directives : List Directive} {c : Inclusion}
    {f : NamedFragment} (found : NamedFragment.find? built name = some f) {path : FieldPath}
    {scope : ScopePath} {slot : Slot} :
    Puts built τ q (.fragmentSpread name directives) c path scope slot
      ↔ f.built.entities.Below τ q.entity (q.follow f.definition.typeCondition c).scope c path scope
          slot
        ∨ path = q.entity ∧ (q.scope == scope) = true ∧ slot = .fragment name ∧ τ c := by
  rw [or_comm]
  refine or_congr ?_ ?_
  · simp only [Selection.slot?, Option.some.injEq, eq_comm (a := slot)]
    exact and_left_comm.trans (and_congr_right fun _ => and_left_comm)
  · constructor
    · rintro ⟨_, _, g, ⟨⟩, found', below⟩
      cases found.symm.trans found'
      exact below
    · exact fun below => ⟨name, directives, f, rfl, found, below⟩

/-- What a walk adds is what is put by the selections that it meets itself.  The induction is on the
walk; its fragments are those that are built. -/
theorem Walked.reads_entries (additive : Inclusion.Additive τ)
    (fragments : ∀ g ∈ built, g.Inlined view document) {info : TypeInfo}
    {direct direct' : DirectSelections} {draft draft' : Draft} {ss : List Selection}
    (h : Walked view built info direct draft ss direct' draft') :
    ∀ {path : FieldPath}, draft.entities.WellFormed → draft.entities.pathOf? info.entity = some path →
      ∀ {p : FieldPath} {scope : ScopePath} {slot : Slot},
        draft'.entities.Reads τ p scope slot ↔ draft.entities.Reads τ p scope slot
          ∨ PutsMet built τ (MeetsOwn view (info.place path) ss) p scope slot := by
  induction h with
  | nil =>
      intro path _ _ p scope slot
      exact (or_iff_left (not_putsMet fun q t c => not_meets_nil)).symm
  | skipped skips _ ih =>
      intro path wf at_ p scope slot
      rw [ih wf at_]
      refine or_congr_right (putsMet_congr fun q t c => ?_)
      exact ((meets_cons _ _).trans (or_iff_right (not_meets_skipped skips))).symm
  | @leaf info direct direct₁ direct' draft draft' f ss inclusion included isLeaf added _ ih =>
      intro path wf at_ p scope slot
      have first := adds_leaf wf at_ isLeaf inclusion
      rw [ih first.wellFormed (first.extended.paths _ _ at_)]
      have inserted : (draft.insertField info f inclusion).entities.Reads τ p scope slot
          ↔ draft.entities.Reads τ p scope slot
            ∨ Puts built τ (info.place path) (.field f) inclusion p scope slot := by
        rw [puts_field]
        exact EntityStorage.reads_modifyTree at_ fun t =>
          t.reads_insertField additive _ ⟨f.responseKey, f.name, f.type, inclusion⟩ scope slot
      rw [inserted, or_assoc, ← putsMet_one, ← putsMet_or]
      refine or_congr_right (putsMet_congr fun q t c => ?_)
      rw [MeetsOwn, meets_cons _ ss, meets_field included, isLeaf]
      simp
  | @entity info direct below direct₁ direct' draft draft₁ draft' entities entity f ss inclusion
      included isComposite selected inner added _ ihInner ih =>
      intro path wf at_ p scope slot
      obtain ⟨first, at'⟩ := adds_entity wf at_ isComposite inclusion selected
      have after := first.trans (inner.adds fragments first.wellFormed at')
      have inserted : entities.Reads τ p scope slot ↔ draft.entities.Reads τ p scope slot
          ∨ Puts built τ (info.place path) (.field f) inclusion p scope slot := by
        rw [puts_field, EntityStorage.reads_entityForField selected]
        exact EntityStorage.reads_modifyTree at_ fun t =>
          t.reads_insertField additive _ ⟨f.responseKey, f.name, f.type, inclusion⟩ scope slot
      rw [ih after.wellFormed (after.extended.paths _ _ at_), ihInner first.wellFormed at', inserted,
        or_assoc, or_assoc, ← putsMet_one, ← putsMet_or, ← putsMet_or]
      refine or_congr_right (putsMet_congr fun q t c => ?_)
      rw [MeetsOwn, meets_cons _ ss, meets_field included, isComposite, or_assoc]
      simp only [true_and]
      rfl
  | @flat info direct direct₁ direct' draft draft₁ draft' condition directives inner ss verdict
      conditions deferral read opened deferred flattens inside _ ihInside ih =>
      intro path wf at_ p scope slot
      have first := inside.adds fragments wf at_
      rw [ih first.wellFormed (first.extended.paths _ _ at_), ihInside wf at_, or_assoc, ← putsMet_or]
      refine or_congr_right (putsMet_congr fun q t c => ?_)
      rw [MeetsOwn, meets_cons _ ss, meets_inline read opened, Deferral.said_eq deferred,
        TypeInfo.enter_place_flat flattens]
  | @inline info direct below direct₁ direct' draft draft₁ draft' condition directives inner ss
      verdict conditions deferral read opened deferred opens inside added _ ihInside ih =>
      intro path wf at_ p scope slot
      have first := inside.adds fragments wf at_
      rw [ih first.wellFormed (first.extended.paths _ _ at_), ihInside wf at_, or_assoc, ← putsMet_or]
      refine or_congr_right (putsMet_congr fun q t c => ?_)
      rw [MeetsOwn, meets_cons _ ss, meets_inline read opened, Deferral.said_eq deferred,
        TypeInfo.enter_place view opens]
  | @spread info direct direct₁ direct' draft draft' entities name directives ss inclusion
      deferral fragment included deferred found merged added _ ih =>
      intro path wf at_ p scope slot
      obtain ⟨mem, named⟩ := NamedFragment.mem_of_find? found
      obtain ⟨-, inlines⟩ := fragments fragment mem
      have site := Walk.spreadSite_place view info path fragment.definition.typeCondition inclusion
      rw [site.1, site.2] at merged
      have first := adds_fragment wf inlines ((info.place path).follow _ inclusion) rfl rfl at_ merged
      have at' := first.extended.paths _ _ at_
      have second := adds_reference view first.wellFormed at' fragment.name directives inclusion
      rw [ih second.wellFormed (second.extended.paths _ _ at')]
      have merging : entities.Reads τ p scope slot ↔ draft.entities.Reads τ p scope slot
          ∨ fragment.built.entities.Below τ path ((info.place path).follow
            fragment.definition.typeCondition inclusion).scope inclusion p scope slot :=
        EntityStorage.reads_mergeFragmentEntities additive wf inlines.wellFormed at_ merged
      have put : (entities.modifyTree info.entity
            (·.insertFragment info.scopePath fragment.name inclusion)).Reads τ p scope slot
          ↔ draft.entities.Reads τ p scope slot ∨ Puts built τ (info.place path)
            (.fragmentSpread name directives) inclusion p scope slot := by
        rw [puts_spread found, ← or_assoc, named]
        refine Iff.trans ?_ (or_congr_left merging)
        exact EntityStorage.reads_modifyTree at' fun t =>
          t.reads_insertFragment additive _ name inclusion scope slot
      rw [put, or_assoc, ← putsMet_one, ← putsMet_or]
      refine or_congr_right (putsMet_congr fun q t c => ?_)
      rw [MeetsOwn, meets_cons _ ss]
      exact or_congr_left (meetsOwn_spread included).symm

theorem WalkedFrom.reads_entries (additive : Inclusion.Additive τ)
    (fragments : ∀ g ∈ built, g.Inlined view document) {source : SourceDefinition} {rootName : Name}
    {b : BuiltSelections} (h : WalkedFrom view built source rootName b) {path : FieldPath}
    {scope : ScopePath} {slot : Slot} :
    b.entities.Reads τ path scope slot
      ↔ PutsMet built τ (MeetsOwn view (.root source.definition.rootType)
          source.definition.selections) path scope slot := by
  obtain ⟨direct, draft, walked, rfl⟩ := h
  have start := EntityStorage.start_wellFormed source
  have root : (source.info view).place .root = .root source.definition.rootType :=
    congrArg Place.root source.rootType_eq
  rw [← root]
  exact (walked.reads_entries additive fragments start start.rootFirst).trans
    (or_iff_right EntityStorage.not_reads_start)

end Walked

/-! ## Storages that are read alike -/

/-- Scopes of a tree at equal paths are one. -/
theorem SelectionTree.Keyed.scope_unique {t : SelectionTree} (h : t.Keyed)
    {a b : ScopePath × ScopeSelections} (memA : a ∈ t.scopes) (memB : b ∈ t.scopes)
    (same : (a.1 == b.1) = true) : a = b := by
  refine Ordered.eq_of_apart (fun s => s.1 == b.1) (h.scopes.imp ?_) memA memB same BEq.rfl
  intro c d apart atC
  rw [Bool.eq_false_iff] at apart ⊢
  exact fun atD => apart (BEq.trans atC (BEq.symm atD))

namespace EntityStorage

variable {s s' : EntityStorage} {path : FieldPath} {scope : ScopePath} {slot : Slot}

/-- What is read is read of some inclusion. -/
theorem reads_iff_exists :
    s.Reads τ path scope slot ↔ ∃ i, s.Reads (· = i) path scope slot ∧ τ i := by
  simp only [Reads, SelectionTree.reads_iff_exists (τ := τ)]
  constructor
  · rintro ⟨e, mem, at_, i, read, held⟩
    exact ⟨i, ⟨e, mem, at_, read⟩, held⟩
  · rintro ⟨i, ⟨e, mem, at_, read⟩, held⟩
    exact ⟨e, mem, at_, i, read, held⟩

theorem WellFormed.reads_unique (h : s.WellFormed) {i j : Inclusion}
    (first : s.Reads (· = i) path scope slot) (second : s.Reads (· = j) path scope slot) : i = j := by
  obtain ⟨e, mem, rfl, x, memX, sameX, readX⟩ := first
  obtain ⟨e', mem', at_, y, memY, sameY, readY⟩ := second
  obtain rfl := h.unique mem mem' at_.symm
  have keyed := h.keyed e mem
  obtain rfl := keyed.scope_unique memX memY (BEq.trans sameX (BEq.symm sameY))
  exact (keyed.entries x memX).reads_unique readX readY

/-- At the path of an entity a storage is read as the entity's tree is. -/
theorem WellFormed.reads_iff (h : s.WellFormed) {e : Entity} (mem : e ∈ s.entities) :
    s.Reads τ e.location.path scope slot ↔ e.tree.Reads τ scope slot := by
  constructor
  · rintro ⟨e', mem', same, read⟩
    exact h.unique mem' mem same ▸ read
  · exact fun read => ⟨e, mem, rfl, read⟩

/-- Two storages are read alike by every property that does not tell equal inclusions apart. -/
def SameEntries (s s' : EntityStorage) : Prop :=
  ∀ τ, Inclusion.Respects τ → ∀ path scope slot,
    s.Reads τ path scope slot ↔ s'.Reads τ path scope slot

theorem SameEntries.symm (h : s.SameEntries s') : s'.SameEntries s :=
  fun τ respects path scope slot => (h τ respects path scope slot).symm

/-- It is enough that they are read alike by the additive properties that settle equality. -/
theorem sameEntries_of_additive (h : s.WellFormed) (h' : s'.WellFormed)
    (same : ∀ τ, Inclusion.Additive τ → Inclusion.Respects τ → ∀ path scope slot,
      s.Reads τ path scope slot ↔ s'.Reads τ path scope slot) : s.SameEntries s' := by
  -- An entry of one of them has an equal one in the other.
  have equal : ∀ {path scope slot i j}, s.Reads (· = i) path scope slot →
      s'.Reads (· = j) path scope slot → (i == j) = true := by
    intro path scope slot i j readI readJ
    have held : ∀ τ, Inclusion.Additive τ → Inclusion.Respects τ → (τ i ↔ τ j) := by
      intro τ additive respects
      constructor
      · intro heldI
        obtain ⟨k, readK, heldK⟩ := reads_iff_exists.mp
          ((same τ additive respects path scope slot).mp (reads_iff_exists.mpr ⟨i, readI, heldI⟩))
        exact h'.reads_unique readK readJ ▸ heldK
      · intro heldJ
        obtain ⟨k, readK, heldK⟩ := reads_iff_exists.mp
          ((same τ additive respects path scope slot).mpr (reads_iff_exists.mpr ⟨j, readJ, heldJ⟩))
        exact h.reads_unique readK readI ▸ heldK
    exact Inclusion.beq_iff.mpr ⟨held _ Inclusion.additive_always Inclusion.respects_always,
      fun c => held _ (Inclusion.additive_covers c) (Inclusion.respects_covers c)⟩
  -- Which entries there are is itself additive.
  have there := same _ Inclusion.additive_true Inclusion.respects_true
  intro τ respects path scope slot
  constructor
  · intro read
    obtain ⟨i, readI, held⟩ := reads_iff_exists.mp read
    obtain ⟨j, readJ, -⟩ := reads_iff_exists.mp
      ((there path scope slot).mp (reads_iff_exists.mpr ⟨i, readI, trivial⟩))
    exact reads_iff_exists.mpr ⟨j, readJ, respects i j (equal readI readJ) held⟩
  · intro read
    obtain ⟨j, readJ, held⟩ := reads_iff_exists.mp read
    obtain ⟨i, readI, -⟩ := reads_iff_exists.mp
      ((there path scope slot).mpr (reads_iff_exists.mpr ⟨j, readJ, trivial⟩))
    exact reads_iff_exists.mpr ⟨i, readI, respects j i (BEq.symm (equal readI readJ)) held⟩

theorem SameEntries.below (same : s.SameEntries s') (respects : Inclusion.Respects τ)
    {site : FieldPath} {target : ScopePath} {guard : Inclusion}
    (h : s.Below τ site target guard path scope slot) :
    s'.Below τ site target guard path scope slot := by
  obtain ⟨q, below, at_, equal, read⟩ := h
  exact ⟨q, below, at_, equal, (same _ (respects.under _) q below slot).mp read⟩

end EntityStorage
end SelectionGraph
