import SelectionGraph.Proofs.Direct.Agreement
import SelectionGraph.Proofs.Entity.Entries
import SelectionGraph.Proofs.Entity.Shadowing
import SelectionGraph.Proofs.Session.Outcome

/-!
# Spreads — where trees and direct selections have the spreads of fragments

Both the trees of entities and the direct selections of a definition have its spreads.  A spread of a
fragment whose type is not the one selected on enters a scope of that type.  The direct selections have
the spread inside this scope, but the tree records it in the scope where it is written, so that the two
differ by the scope that is entered.

* `ScopePath.entered`            — the scope in which a spread comes to sit;
* `ExecutableDefinition.Writes`  — a definition itself spreads a fragment, in a scope of an entity;
* `tally_writes`                 — what is told of the spreads of a fragment adds up to what is written;
* `WalkedFrom.spread_iff`        — direct selections have the spreads that are written, where they enter;
* `WalkedFrom.recorded`          — a tree has them where they are written;
* `spreads_are_recorded_where_they_are_written` — how the two agree.
-/

namespace SelectionGraph

variable {view : SchemaView} {document : Document} {built : List NamedFragment} {σ : Assignment}
  {path : FieldPath} {scope : ScopePath} {name : Name}

/-! ## Scopes that are entered -/

/-- The scope of the selections of a fragment on a type that is spread in a scope of an entity: one
scope further, unless this is the type selected on. -/
def ScopePath.entered (scope : ScopePath) (rootType typeCondition : Name) : ScopePath :=
  if typeCondition == scope.typeOn rootType then scope else scope.append ⟨typeCondition, none⟩

namespace ScopePath

theorem typeOn_entered (scope : ScopePath) (rootType typeCondition : Name) :
    (scope.entered rootType typeCondition).typeOn rootType = typeCondition := by
  unfold entered
  split
  · rename_i same
    exact (eq_of_beq same).symm
  · exact Place.typeOn_append _ _ _

theorem entered_congr {scope' : ScopePath} (same : (scope == scope') = true)
    (rootType typeCondition : Name) :
    (scope.entered rootType typeCondition == scope'.entered rootType typeCondition) = true := by
  unfold entered
  rw [typeOn_congr same]
  split
  · exact same
  · exact concat_congr (q := ⟨[⟨typeCondition, none⟩]⟩) same BEq.rfl

/-- A spread of a fragment on the type selected on stays where it is written. -/
theorem entered_of_type {rootType typeCondition : Name}
    (same : scope.typeOn rootType = typeCondition) : scope.entered rootType typeCondition = scope :=
  if_pos (beq_iff_eq.mpr same.symm)

end ScopePath

/-- An entity is selected as the type at the end of its path. -/
theorem EntityStorage.WellFormed.rootType_eq {s : EntityStorage} (h : s.WellFormed) {e : Entity}
    (mem : e ∈ s.entities) : e.tree.rootType = e.location.path.typeFrom s.source.rootType := by
  refine (h.rootType mem).trans ?_
  unfold FieldPath.typeFrom FieldPath.last? FieldPath.types
  rcases List.eq_nil_or_concat e.location.path.components with empty | ⟨cs, c, components⟩
  · simp [empty]
  · simp [components]

/-- A place enters the scope of a fragment where its scope does. -/
theorem Place.scope_follow {q : Place} {rootType : Name} (typed : q.type = q.scope.typeOn rootType)
    (typeCondition : Name) (guard : Inclusion) :
    (q.follow typeCondition guard).scope = q.scope.entered rootType typeCondition := by
  rw [Place.follow, typed]
  rfl

/-! ## Spreads that are written -/

/-- A definition itself spreads the fragment of a name on the entity at a path, in a scope and under a
condition. -/
def ExecutableDefinition.Writes (view : SchemaView) (d : ExecutableDefinition) (path : FieldPath)
    (scope : ScopePath) (name : Name) (c : Inclusion) : Prop :=
  ∃ q directives, MeetsOwn view (.root d.rootType) d.selections q (.fragmentSpread name directives) c
    ∧ q.entity = path ∧ (q.scope == scope) = true

/-- Told of an entry, that it is an included spread of the fragment of a name, in a scope of the entity
at a path. -/
def spreadTale (σ : Assignment) (path : FieldPath) (scope : ScopePath) (name : Name) : Tale :=
  fun site inScope slot c =>
    site = path ∧ (inScope == scope) = true ∧ slot = .fragment name ∧ c.holds σ = true

theorem spreadTale_even : (spreadTale σ path scope name).Even where
  of_beq := by
    rintro site inScope inScope' slot c same ⟨at_, here, rest⟩
    exact ⟨at_, BEq.trans (BEq.symm same) here, rest⟩
  merge := by
    simp only [spreadTale, Inclusion.holds_merge, Bool.or_eq_true, and_or_left, implies_true]

/-- What is met is a spread that is included and comes to sit in a scope of the entity at a path. -/
def Place.SitsIn (built : List NamedFragment) (σ : Assignment) (path : FieldPath) (scope : ScopePath)
    (name : Name) (q : Place) (t : Selection) (c : Inclusion) : Prop :=
  ∃ directives f, t = .fragmentSpread name directives ∧ NamedFragment.find? built name = some f
    ∧ q.entity = path ∧ ((q.follow f.definition.typeCondition c).scope == scope) = true
    ∧ c.holds σ = true

/-- What is told of the spreads of a fragment adds up to those that a walk meets itself. -/
theorem tally_writes : Tally view built (spreadTale σ path scope name) fun p ss =>
    SomeMet (MeetsOwn view p ss) (Place.SitsIn built σ path scope name) where
  nil := not_someMet fun _ _ _ => not_meets_nil
  cons := (someMet_congr fun _ _ _ => meets_cons _ _).trans someMet_or
  skipped skips := not_someMet fun _ _ _ => not_meets_skipped skips
  field := by
    intro p f own _ included
    refine (someMet_congr fun q t c => meets_field included).trans ?_
    rw [someMet_or, someMet_one, someMet_and]
    -- A field is no spread, neither where it is met nor as it is told.
    refine or_congr_left (iff_of_false ?_ ?_)
    · rintro ⟨_, _, ⟨⟩, _⟩
    · rintro ⟨_, _, ⟨⟩, _⟩
  inline read opened := someMet_congr fun _ _ _ => meets_inline read opened
  spread := by
    intro p other directives own fragment _ included found
    rw [someMet_congr fun q t c => meetsOwn_spread included, someMet_one]
    constructor
    · rintro ⟨_, _, ⟨⟩, found', at_, same, holds⟩
      cases found.symm.trans found'
      exact ⟨at_, same, rfl, holds⟩
    · rintro ⟨at_, same, ⟨⟩, holds⟩
      exact ⟨directives, fragment, rfl, found, at_, same, holds⟩

/-! ## What is built -/

/-- A spread of the fragment of a name is in the direct selections of a definition, at any depth, in a
scope of the entity at a path. -/
structure BuiltSelections.HasSpread (b : BuiltSelections) (path : FieldPath) (scope : ScopePath)
    (name : Name) (s : NamedSpread) : Prop where
  within : ∃ set, b.rootField.selectionSet.Within set ∧ s ∈ set.direct.namedFragments
  entity : b.entities.pathOf? s.typeInfo.entity = some path
  inScope : (s.typeInfo.scopePath == scope) = true
  named : s.fragment.name = name

/-- The tree of an entity records a fragment in a scope, under conditions that hold whenever these
do. -/
def Entity.Records (e : Entity) (scope : ScopePath) (name : Name) (c : Inclusion) : Prop :=
  ∃ i, e.tree.inclusion? scope (.fragment name) = some i ∧ ∀ σ, c.holds σ = true → i.holds σ = true

/-- There is one inclusion to find, so that it can be found after the values are chosen. -/
theorem Entity.records_iff {e : Entity} {c : Inclusion} : e.Records scope name c ↔ ∀ σ,
    c.holds σ = true → ∃ i, e.tree.inclusion? scope (.fragment name) = some i ∧ i.holds σ = true := by
  constructor
  · rintro ⟨i, there, implied⟩ σ holds
    exact ⟨i, there, implied σ holds⟩
  · intro found
    obtain ⟨σ, holds⟩ := c.exists_holds
    obtain ⟨i, there, -⟩ := found σ holds
    refine ⟨i, there, fun σ holds => ?_⟩
    obtain ⟨j, there', held⟩ := found σ holds
    cases there.symm.trans there'
    exact held

section Built

variable {d : ExecutableDefinition} {b : BuiltSelections} {rootName : Name} {id : DefinitionId}

/-- The direct selections of a definition have the spreads that its walk meets itself, where these come
to sit. -/
theorem WalkedFrom.spread_iff (fragments : ∀ g ∈ built, g.Inlined view document)
    (h : WalkedFrom view built ⟨id, d⟩ rootName b) :
    (∃ s, b.HasSpread path scope name s ∧ s.inclusion.holds σ = true)
      ↔ SomeMet (MeetsOwn view (.root d.rootType) d.selections)
          (Place.SitsIn built σ path scope name) := by
  rw [← (h.adds_tally spreadTale_even tally_writes fragments).2, SelectionSet.tells_iff_within]
  constructor
  · rintro ⟨s, ⟨⟨set, within, mem⟩, entity, inScope, rfl⟩, holds⟩
    exact ⟨set, within, Or.inr ⟨s, mem, path, entity, rfl, inScope, rfl, holds⟩⟩
  · rintro ⟨set, within, ⟨f, mem, _, entity, -, -, slot, -⟩
      | ⟨s, mem, _, entity, rfl, inScope, slot, holds⟩⟩
    · -- A field has no fragment's slot.
      cases slot
    · exact ⟨s, ⟨⟨set, within, mem⟩, entity, inScope, Slot.fragment.inj slot⟩, holds⟩

/-- Sets and spreads are noted to sit where they do, whatever is told of them. -/
theorem WalkedFrom.sited (fragments : ∀ g ∈ built, g.Inlined view document)
    (h : WalkedFrom view built ⟨id, d⟩ rootName b) :
    b.rootField.selectionSet.direct.Sited b.rootField.selectionSet.typeInfo := by
  have even : (spreadTale (fun _ => true) .root .root rootName).Even := spreadTale_even
  exact (h.adds_tally even tally_writes fragments).1

/-- Every selection set is on an entity that is there. -/
theorem WalkedFrom.located (library : Library view document built)
    (h : WalkedFrom view built ⟨id, d⟩ rootName b) {set : SelectionSet}
    (within : b.rootField.selectionSet.Within set) :
    ∃ path, b.entities.pathOf? set.typeInfo.entity = some path := by
  have faithful := (h.faithful library.inlined library.closed).1
  induction within with
  | self =>
      have wellFormed := (h.inlines library.inlined).wellFormed
      obtain ⟨direct, draft, -, rfl⟩ := h
      exact ⟨_, wellFormed.rootFirst⟩
  | field within mem _ =>
      obtain ⟨⟨p, c, at_, -⟩, -⟩ := (faithful.tidy.within within).entity mem
      exact ⟨_, at_⟩
  | inline within mem ih =>
      -- An inline fragment is on the entity of the set around it.
      obtain ⟨⟨_, _, _, alike⟩, -⟩ := (within.sited (h.sited library.inlined)).inline mem
      obtain ⟨path, at_⟩ := ih
      exact ⟨path, alike.entity ▸ at_⟩

/-- Every spread is on an entity that is there. -/
theorem WalkedFrom.exists_entity (library : Library view document built)
    (h : WalkedFrom view built ⟨id, d⟩ rootName b) {set : SelectionSet}
    (within : b.rootField.selectionSet.Within set) {s : NamedSpread}
    (mem : s ∈ set.direct.namedFragments) : ∃ e, b.entities.get? s.typeInfo.entity = some e := by
  obtain ⟨path, at_⟩ := h.located library within
  obtain ⟨_, _, _, _, spreads⟩ := within.sited (h.sited library.inlined)
  rw [← (spreads s mem).entity] at at_
  obtain ⟨e, get, -⟩ := EntityStorage.pathOf?_eq_some_iff.mp at_
  exact ⟨e, get⟩

/-- What a definition writes is recorded in the tree of the entity, in the scope where it is written. -/
theorem WalkedFrom.recorded (library : Library view document built)
    (h : WalkedFrom view built ⟨id, d⟩ rootName b) {c : Inclusion}
    (writes : d.Writes view path scope name c) {e : Entity} (mem : e ∈ b.entities.entities)
    (at_ : e.location.path = path) :
    e.Records scope name c := by
  have wellFormed := (h.inlines library.inlined).wellFormed
  obtain ⟨q, directives, met, rfl, same⟩ := writes
  -- For given values the tree reads what its entries were put together from.
  refine Entity.records_iff.mpr fun σ holds => ?_
  rw [← (wellFormed.keyed e mem).reads_iff_inclusion? (τ := fun i => i.holds σ = true),
    ← wellFormed.reads_iff mem, h.reads_entries (Inclusion.additive_holds σ) library.inlined, at_]
  exact ⟨q, _, c, met, Or.inl ⟨rfl, rfl, same, holds⟩⟩

/-- A spread is of the fragment that is found under its name, which is listed. -/
theorem BuiltSelections.HasSpread.found {s : NamedSpread} (has : b.HasSpread path scope name s)
    (shares : b.Shares built) :
    ∃ f ∈ b.referenced, NamedFragment.find? built name = some f ∧ f.handle = s.fragment := by
  obtain ⟨set, within, mem⟩ := has.within
  obtain ⟨f, listed, handle⟩ := shares.known set within s mem
  have named : f.name = name := (congrArg FragmentHandle.name handle).trans has.named
  exact ⟨f, listed, named ▸ shares.refers f listed, handle⟩

/-- The scope of the fragment of a spread that is met is the one that is entered from there. -/
theorem WalkedFrom.scope_follow (library : Library view document built)
    (h : WalkedFrom view built ⟨id, d⟩ rootName b) {e : Entity} (mem : e ∈ b.entities.entities)
    {q : Place} {t : Selection} {c : Inclusion}
    (met : MeetsOwn view (.root d.rootType) d.selections q t c) (at_ : q.entity = e.location.path)
    (typeCondition : Name) :
    (q.follow typeCondition c).scope = q.scope.entered e.tree.rootType typeCondition := by
  refine Place.scope_follow ?_ typeCondition c
  have rootType : e.tree.rootType = q.entity.typeFrom d.rootType := by
    rw [(h.inlines library.inlined).wellFormed.rootType_eq mem, h.source_entities library,
      SourceDefinition.rootType_eq, at_]
  rw [rootType]
  exact Meets.typed met (Place.typed_root _)

/-- A spread in the direct selections that is included is one that is written, in a scope from which it
enters the one it sits in. -/
theorem WalkedFrom.written (library : Library view document built)
    (h : WalkedFrom view built ⟨id, d⟩ rootName b) {e : Entity} (mem : e ∈ b.entities.entities)
    {s : NamedSpread} (has : b.HasSpread e.location.path scope name s)
    (holds : s.inclusion.holds σ = true) :
    ∃ inScope c, d.Writes view e.location.path inScope name c ∧ c.holds σ = true
      ∧ (inScope.entered e.tree.rootType s.fragment.typeCondition == scope) = true := by
  obtain ⟨q, t, c, met, directives, f, rfl, found, at_, same, held⟩ :=
    (h.spread_iff library.inlined).mp ⟨s, has, holds⟩
  refine ⟨q.scope, c, ⟨q, directives, met, at_, BEq.rfl⟩, held, ?_⟩
  -- The fragment that the walk found is the one that is spread.
  obtain ⟨g, -, found', handle⟩ := has.found (h.shares library)
  cases found.symm.trans found'
  rw [← handle]
  exact h.scope_follow library mem met at_ f.definition.typeCondition ▸ same

/-- A spread that a walk meets itself is of a fragment that is listed, and is in the direct selections,
in the scope of the fragment. -/
theorem WalkedFrom.sits_where_met (library : Library view document built)
    (h : WalkedFrom view built ⟨id, d⟩ rootName b) {q : Place} {directives : List Directive}
    {c : Inclusion} (met : MeetsOwn view (.root d.rootType) d.selections q
      (.fragmentSpread name directives) c) :
    ∃ f ∈ b.referenced, NamedFragment.find? built name = some f ∧ ∀ scope σ,
      ((q.follow f.definition.typeCondition c).scope == scope) = true → c.holds σ = true →
      ∃ s, b.HasSpread q.entity scope name s ∧ s.fragment = f.handle
        ∧ s.inclusion.holds σ = true := by
  obtain ⟨f, found⟩ := h.found ⟨directives, met.visited⟩
  have sits : ∀ scope σ,
      ((q.follow f.definition.typeCondition c).scope == scope) = true → c.holds σ = true →
      f ∈ b.referenced ∧ ∃ s, b.HasSpread q.entity scope name s ∧ s.fragment = f.handle
        ∧ s.inclusion.holds σ = true := by
    intro scope σ here holds
    obtain ⟨s, has, included⟩ := (h.spread_iff library.inlined).mpr
      ⟨q, _, c, met, directives, f, rfl, found, rfl, here, holds⟩
    obtain ⟨g, listed, found', handle⟩ := has.found (h.shares library)
    cases found.symm.trans found'
    exact ⟨listed, s, has, handle.symm, included⟩
  obtain ⟨σ, holds⟩ := c.exists_holds
  exact ⟨f, (sits _ σ BEq.rfl holds).1, found, fun scope σ here holds => (sits scope σ here holds).2⟩

/-- A definition's own spread is of a fragment that is listed, and is in the direct selections, in the
scope that it enters. -/
theorem WalkedFrom.sits (library : Library view document built)
    (h : WalkedFrom view built ⟨id, d⟩ rootName b) {c : Inclusion}
    (writes : d.Writes view path scope name c) :
    ∃ e ∈ b.entities.entities, ∃ f ∈ b.referenced, e.location.path = path ∧ f.name = name
      ∧ ∀ σ, c.holds σ = true → ∃ s,
        b.HasSpread path (scope.entered e.tree.rootType f.definition.typeCondition) name s
          ∧ s.fragment = f.handle ∧ s.inclusion.holds σ = true := by
  obtain ⟨q, directives, met, rfl, same⟩ := writes
  obtain ⟨f, listed, found, sits⟩ := h.sits_where_met library met
  -- Under some values the spread is there, and then its entity is.
  obtain ⟨σ, holds⟩ := c.exists_holds
  obtain ⟨s, has, -⟩ := sits _ σ BEq.rfl holds
  obtain ⟨e, get, at_⟩ := EntityStorage.pathOf?_eq_some_iff.mp has.entity
  have mem : e ∈ b.entities.entities := List.mem_of_getElem? get
  refine ⟨e, mem, f, listed, at_, (NamedFragment.mem_of_find? found).2, fun σ holds => ?_⟩
  refine sits _ σ ?_ holds
  rw [h.scope_follow library mem met at_.symm]
  exact ScopePath.entered_congr same _ _

/-- What a tree has of the spreads of a fragment is written where it is, or has come with a fragment
that is spread. -/
theorem WalkedFrom.written_or_brought (library : Library view document built)
    (h : WalkedFrom view built ⟨id, d⟩ rootName b) {e : Entity} (mem : e ∈ b.entities.entities)
    {i : Inclusion} (there : e.tree.inclusion? scope (.fragment name) = some i)
    (holds : i.holds σ = true) :
    (∃ c, d.Writes view e.location.path scope name c ∧ c.holds σ = true)
      ∨ ∃ f ∈ b.referenced, ∃ g ∈ f.built.entities.entities, ∃ below j,
        g.tree.inclusion? below (.fragment name) = some j ∧ j.holds σ = true := by
  have wellFormed := (h.inlines library.inlined).wellFormed
  have read : e.tree.Reads (fun i => i.holds σ = true) scope (.fragment name) :=
    (wellFormed.keyed e mem).reads_iff_inclusion?.mpr ⟨i, there, holds⟩
  rw [← wellFormed.reads_iff mem, h.reads_entries (Inclusion.additive_holds σ) library.inlined] at read
  obtain ⟨q, t, c, met, ⟨slot, at_, same, held⟩ | ⟨other, directives, f, rfl, found, below⟩⟩ := read
  · -- An entry of its own is a spread that the walk met in this scope.
    obtain ⟨directives, rfl⟩ : ∃ directives, t = .fragmentSpread name directives := by
      cases t <;> simp_all [Selection.slot?]
    exact Or.inl ⟨c, ⟨q, directives, met, at_.symm, same⟩, held⟩
  · -- Any other entry is below a spread, in an entity of its fragment.
    obtain ⟨f', listed, found', -⟩ := h.sits_where_met library met
    cases found.symm.trans found'
    have keyed := (library.inlined f (NamedFragment.mem_of_find? found).1).entities.wellFormed.keyed
    obtain ⟨_, below, -, -, g, memG, rfl, read⟩ := below
    obtain ⟨j, there, held⟩ := (keyed g memG).reads_iff_inclusion?.mp read
    exact Or.inr ⟨f, listed, g, memG, below, j, there, (Inclusion.under_holds.mp held).1⟩

/-! ## How they agree -/

theorem ExecutableDefinition.Writes.congr {c : Inclusion} {scope' : ScopePath}
    (writes : d.Writes view path scope name c) (same : (scope == scope') = true) :
    d.Writes view path scope' name c := by
  obtain ⟨q, directives, met, at_, here⟩ := writes
  exact ⟨q, directives, met, at_, BEq.trans here same⟩

/-- A spread at any depth sits on an entity that is there, in a scope of its fragment's type.  When it
is included, it is one that is written, and recorded, in a scope from which it enters its own. -/
theorem WalkedFrom.recorded_of_within (library : Library view document built)
    (h : WalkedFrom view built ⟨id, d⟩ rootName b) {set : SelectionSet}
    (within : b.rootField.selectionSet.Within set) {s : NamedSpread}
    (mem : s ∈ set.direct.namedFragments) :
    ∃ e, b.entities.get? s.typeInfo.entity = some e
      ∧ e.tree.scopeType s.typeInfo.scopePath = s.fragment.typeCondition
      ∧ ∀ σ, s.inclusion.holds σ = true → ∃ scope c,
        d.Writes view e.location.path scope s.fragment.name c ∧ c.holds σ = true
          ∧ (scope.entered e.tree.rootType s.fragment.typeCondition == s.typeInfo.scopePath) = true
          ∧ e.Records scope s.fragment.name c := by
  obtain ⟨e, get⟩ := h.exists_entity library within mem
  have memE : e ∈ b.entities.entities := List.mem_of_getElem? get
  have has : b.HasSpread e.location.path s.typeInfo.scopePath s.fragment.name s :=
    ⟨⟨set, within, mem⟩, EntityStorage.pathOf?_eq_some_iff.mpr ⟨e, get, rfl⟩, BEq.rfl, rfl⟩
  refine ⟨e, get, ?_, fun σ holds => ?_⟩
  · obtain ⟨σ, holds⟩ := s.inclusion.exists_holds
    obtain ⟨scope, c, -, -, entered⟩ := h.written library memE has holds
    rw [SelectionTree.scopeType, ← ScopePath.typeOn_congr entered, ScopePath.typeOn_entered]
  · obtain ⟨scope, c, writes, held, entered⟩ := h.written library memE has holds
    exact ⟨scope, c, writes, held, entered, h.recorded library writes memE rfl⟩

/-- A spread that enters its scope from scopes of its fragment's type only is recorded there. -/
theorem WalkedFrom.recorded_of_type (library : Library view document built)
    (h : WalkedFrom view built ⟨id, d⟩ rootName b) {e : Entity} (mem : e ∈ b.entities.entities)
    {s : NamedSpread} (has : b.HasSpread e.location.path scope name s)
    (ofType : ∀ inScope c, d.Writes view e.location.path inScope name c →
      (inScope.entered e.tree.rootType s.fragment.typeCondition == scope) = true →
      e.tree.scopeType inScope = s.fragment.typeCondition) :
    e.Records scope name s.inclusion := by
  refine Entity.records_iff.mpr fun σ holds => ?_
  obtain ⟨inScope, c, writes, held, entered⟩ := h.written library mem has holds
  have here : (inScope == scope) = true := by
    rwa [ScopePath.entered_of_type (ofType inScope c writes entered)] at entered
  exact Entity.records_iff.mp (h.recorded library (writes.congr here) mem rfl) σ held

end Built

/-- The trees of entities and the direct selections of a definition that is built have the same
spreads, up to the scope that is entered for the type of the fragment.  A spread at any depth sits on
an entity that is there, in a scope of its fragment's type.  Whenever it is included, it is one that is
written on the entity in a scope from which it enters its own, and there the tree records it.  So the
tree records it in its own scope if whatever enters this is written in scopes of that type.  What is
written is recorded where it is written, and sits in the direct selections in the scope that is entered.
Whatever else a tree has of a fragment has come with fragments that are spread. -/
theorem spreads_are_recorded_where_they_are_written (document : Document) (s : Session)
    (reachable : s.Reachable document) (d : ExecutableDefinition) (b : BuiltSelections)
    (builds : s.Builds d b) :
    (∀ set, b.rootField.selectionSet.Within set → ∀ spread ∈ set.direct.namedFragments,
        ∃ e, b.entities.get? spread.typeInfo.entity = some e
          ∧ e.tree.scopeType spread.typeInfo.scopePath = spread.fragment.typeCondition
          ∧ ∀ σ, spread.inclusion.holds σ = true → ∃ scope c,
            d.Writes s.view e.location.path scope spread.fragment.name c ∧ c.holds σ = true
              ∧ (scope.entered e.tree.rootType spread.fragment.typeCondition
                == spread.typeInfo.scopePath) = true
              ∧ e.Records scope spread.fragment.name c)
      ∧ (∀ e ∈ b.entities.entities, ∀ scope name spread,
        b.HasSpread e.location.path scope name spread →
        (∀ inScope c, d.Writes s.view e.location.path inScope name c →
          (inScope.entered e.tree.rootType spread.fragment.typeCondition == scope) = true →
          e.tree.scopeType inScope = spread.fragment.typeCondition) →
        e.Records scope name spread.inclusion)
      ∧ (∀ path scope name c, d.Writes s.view path scope name c →
        ∃ e ∈ b.entities.entities, ∃ f ∈ b.referenced, e.location.path = path ∧ f.name = name
          ∧ e.Records scope name c
          ∧ ∀ σ, c.holds σ = true → ∃ spread,
            b.HasSpread path (scope.entered e.tree.rootType f.definition.typeCondition) name spread
              ∧ spread.fragment = f.handle ∧ spread.inclusion.holds σ = true)
      ∧ ∀ e ∈ b.entities.entities, ∀ scope name i,
        e.tree.inclusion? scope (.fragment name) = some i → ∀ σ, i.holds σ = true →
        (∃ c, d.Writes s.view e.location.path scope name c ∧ c.holds σ = true)
          ∨ ∃ f ∈ b.referenced, ∃ g ∈ f.built.entities.entities, ∃ below j,
            g.tree.inclusion? below (.fragment name) = some j ∧ j.holds σ = true := by
  obtain ⟨built, id, rootName, library, walked⟩ := builds.walked reachable
  refine ⟨fun set within spread mem => walked.recorded_of_within library within mem,
    fun e mem scope name spread has ofType => walked.recorded_of_type library mem has ofType, ?_,
    fun e mem scope name i there σ holds => walked.written_or_brought library mem there holds⟩
  intro path scope name c writes
  obtain ⟨e, mem, f, listed, at_, named, sits⟩ := walked.sits library writes
  exact ⟨e, mem, f, listed, at_, named, walked.recorded library writes mem at_, sits⟩

/-- The height of a hero, who may be a human, is selected by a fragment on humans.  Its spread in
`query { hero { ...HumanHeight } }` sits in a scope of humans, but the tree of the hero records it only
outside of this scope. -/
theorem spread_on_humans_is_recorded_outside :
    let height : FieldSelection := ⟨none, ⟨none, "height", [], .named "Float", []⟩, [], [], []⟩
    let hero : FieldSelection :=
      ⟨none, ⟨none, "hero", [], .named "Character", []⟩, [], [], [.fragmentSpread "HumanHeight" []]⟩
    let schema : Schema :=
      ⟨[⟨"Query", .object, [hero.definition]⟩, ⟨"Character", .interface, []⟩,
        ⟨"Human", .object, [height.definition]⟩, ⟨"Float", .scalar, []⟩], [(.query, "Query")], none⟩
    let o := Heroes.query [.field hero]
    let document : Document := ⟨[o], [⟨⟨"HumanHeight", "Human", [], [.field height]⟩, none⟩]⟩
    let human : ScopePath := ⟨[⟨"Human", none⟩]⟩
    ∃ (s : Session) (b : BuiltSelections) (e : Entity) (spread : NamedSpread),
      s.Reachable document ∧ s.view.schema = schema ∧ s.Builds (.operation o.definition) b
      ∧ e ∈ b.entities.entities ∧ b.HasSpread e.location.path human "HumanHeight" spread
      ∧ e.tree.inclusion? human (.fragment "HumanHeight") = none
      ∧ e.Records .root "HumanHeight" .always := by
  intro height hero schema o document human
  obtain ⟨s, b, reachable, known, builds, check⟩ := Session.exists_builds document schema o
    (fun b => (b.entities.entities.all fun e => e.location.path.components.isEmpty
        || e.tree.rootType == "Character"
          && (e.tree.inclusion? human (.fragment "HumanHeight")).isNone)
      && b.referenced.all fun f => f.definition.typeCondition == "Human") (by decide +kernel)
  have writes : ExecutableDefinition.Writes s.view (.operation o.definition)
      ⟨[⟨"hero", .named "Character"⟩]⟩ .root "HumanHeight" .always := by
    have isComposite : s.view.isComposite "Character" = .ok true := by
      rw [SchemaView.isComposite, known]
      rfl
    refine ⟨(Place.root "Query").below hero, [], ?_, rfl, BEq.rfl⟩
    exact .field (List.mem_singleton_self _) rfl isComposite (.here (List.mem_singleton_self _) rfl rfl)
  obtain ⟨-, -, kept, -⟩ :=
    spreads_are_recorded_where_they_are_written document s reachable _ b builds
  obtain ⟨e, mem, f, listed, at_, -, records, sits⟩ := kept _ _ _ _ writes
  obtain ⟨spread, has, -⟩ := sits (fun _ => true) rfl
  -- The entity is the hero, not the root, and the fragment is on humans.
  simp only [Bool.and_eq_true, List.all_eq_true, Bool.or_eq_true] at check
  obtain ⟨isRoot | ⟨rootType, none⟩, human⟩ := And.intro (check.1 e mem) (check.2 f listed)
  · rw [at_] at isRoot
    cases isRoot
  · rw [eq_of_beq rootType, eq_of_beq human] at has
    exact ⟨s, b, e, spread, reachable, known, builds, mem, at_ ▸ has,
      Option.isNone_iff_eq_none.mp none, records⟩

end SelectionGraph
