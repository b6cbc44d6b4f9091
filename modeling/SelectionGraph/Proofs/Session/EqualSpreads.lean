import SelectionGraph.Proofs.Direct.RootTypes
import SelectionGraph.Proofs.Direct.Spreads
import SelectionGraph.Proofs.Session.Sharing

/-!
# EqualSpreads — when two spreads are equal

A spread notes the number of the entity that it is on.  Definitions number their entities each for
itself, in the order in which they first come to them, so that the number stands for a place of the
response in one definition only.

* `NamedSpread.AlikeBut`         — spreads of one built fragment that differ in the entity at most;
* `spreads_are_equal_by_number`  — they are equal if their entities have one number, which is one place
  where both definitions number it alike.
-/

namespace SelectionGraph

variable {view : SchemaView} {document : Document} {built : List NamedFragment}

/-! ## Places -/

/-- The set of a field that response keys lead to is inside that of the first. -/
theorem EntityField.within_follow? {keys : List Name} :
    ∀ {f g : EntityField}, f.follow? keys = some g → f.selectionSet.Within g.selectionSet := by
  induction keys with
  | nil =>
      rintro f g ⟨⟩
      exact .self
  | cons key keys ih =>
      intro f g follows
      rw [follow?] at follows
      split at follows
      · cases follows
      · rename_i e found
        obtain ⟨_ | e', held, same⟩ := Option.bind_eq_some_iff.mp found
        · cases same
        · cases same
          exact (SelectionSet.Within.field .self (List.mem_of_find?_eq_some held)).trans (ih follows)

/-- Every spread is on an entity that is at some place. -/
theorem WalkedFrom.spread_located (library : Library view document built) {id : DefinitionId}
    {d : ExecutableDefinition} {rootName : Name} {b : BuiltSelections}
    (h : WalkedFrom view built ⟨id, d⟩ rootName b) {set : SelectionSet}
    (within : b.rootField.selectionSet.Within set) {x : NamedSpread}
    (mem : x ∈ set.direct.namedFragments) :
    ∃ path, b.entities.pathOf? x.typeInfo.entity = some path := by
  obtain ⟨e, get⟩ := h.exists_entity library within mem
  exact ⟨_, EntityStorage.pathOf?_eq_some_iff.mpr ⟨e, get, rfl⟩⟩

/-! ## Equality -/

namespace NamedSpread

theorem beq_iff {x y : NamedSpread} : (x == y) = true
    ↔ x.fragment.identity = y.fragment.identity ∧ (x.typeInfo == y.typeInfo) = true
      ∧ (x.inclusion == y.inclusion) = true ∧ x.deferral = y.deferral := by
  change (x.fragment.identity == y.fragment.identity && x.typeInfo == y.typeInfo
    && x.inclusion == y.inclusion && x.deferral == y.deferral) = true ↔ _
  simp only [Bool.and_eq_true, beq_iff_eq, and_assoc]

/-- Two spreads use one built fragment, in one scope of entities of one type, under the same conditions
and with the same deferral.  The entities may be different ones. -/
structure AlikeBut (fragments : List NamedFragment) (x y : NamedSpread) : Prop where
  fragment : ∃ f ∈ fragments, f.handle = x.fragment ∧ f.handle = y.fragment
  rootType : x.typeInfo.rootType = y.typeInfo.rootType
  scopePath : (x.typeInfo.scopePath == y.typeInfo.scopePath) = true
  inclusion : (x.inclusion == y.inclusion) = true
  deferral : x.deferral = y.deferral

/-- Spreads of one session whose places are noted rightly are equal if they are alike and on entities of
one number.  Whether the type there is a root type follows. -/
theorem beq_iff_alikeBut {s : Session} {identity : Part → DefinitionId}
    (inj : Function.Injective identity) (remembers : s.Remembers identity) {x y : NamedSpread}
    (bindsX : s.Binds x.fragment) (bindsY : s.Binds y.fragment)
    (classifiedX : x.typeInfo.Classified view) (classifiedY : y.typeInfo.Classified view) :
    (x == y) = true
      ↔ AlikeBut s.progress.fragments x y ∧ x.typeInfo.entity = y.typeInfo.entity := by
  rw [beq_iff, classifiedX.beq_iff classifiedY]
  constructor
  · rintro ⟨identities, ⟨entity, rootType, scopePath⟩, inclusion, deferral⟩
    -- One identity is that of one name, under which the session has one fragment.
    have named : x.fragment.name = y.fragment.name := by
      by_contra apart
      exact remembers.identity_ne inj bindsX bindsY apart identities
    obtain ⟨f, found, handle⟩ := bindsX
    obtain ⟨g, found', handle'⟩ := bindsY
    rw [← named, found] at found'
    cases found'
    exact ⟨⟨⟨f, (NamedFragment.mem_of_find? found).1, handle, handle'⟩, rootType, scopePath,
      inclusion, deferral⟩, entity⟩
  · rintro ⟨⟨⟨f, -, handle, handle'⟩, rootType, scopePath, inclusion, deferral⟩, entity⟩
    exact ⟨by rw [← handle, ← handle'], ⟨entity, rootType, scopePath⟩, inclusion, deferral⟩

end NamedSpread

/-- In one storage numbers and places stand for one another. -/
theorem EntityStorage.WellFormed.number_eq_iff {s : EntityStorage} (h : s.WellFormed)
    {i j : EntityId} {p q : FieldPath} (atI : s.pathOf? i = some p) (atJ : s.pathOf? j = some q) :
    i = j ↔ p = q := by
  constructor
  · rintro rfl
    exact Option.some.inj (atI.symm.trans atJ)
  · rintro rfl
    exact h.pathOf?_injective atI atJ

/-- Two spreads, at any depth in definitions that one session built or in one such definition, are equal
exactly if they use one built fragment, in one scope on entities of one type, under the same conditions
and with the same deferral, and their entities have one number.  Each definition numbers its entities
itself.  Where the second has the number of the first spread's entity for the same place, as when both
are one definition, the number can be replaced by the place: the path of fields from the root. -/
theorem spreads_are_equal_by_number (schema : Schema) (document : Document) (next : Nat)
    (s : Session) (started : Session.start schema document next = .ok s) (calls : List Call)
    (b b' : BuiltSelections) (gives : s.Gives calls b) (gives' : s.Gives calls b')
    (set set' : SelectionSet) (within : b.rootField.selectionSet.Within set)
    (within' : b'.rootField.selectionSet.Within set') (x y : NamedSpread)
    (mem : x ∈ set.direct.namedFragments) (mem' : y ∈ set'.direct.namedFragments) :
    let alike := x.AlikeBut (s.after calls).progress.fragments y
    ((x == y) = true ↔ alike ∧ x.typeInfo.entity = y.typeInfo.entity)
      ∧ ∃ path path', b.entities.pathOf? x.typeInfo.entity = some path
        ∧ b'.entities.pathOf? y.typeInfo.entity = some path'
        ∧ (b'.entities.pathOf? x.typeInfo.entity = some path →
          ((x == y) = true ↔ alike ∧ path = path')) := by
  intro alike
  have sound := (Session.Reachable.start started).sound
  obtain ⟨identity, inj⟩ := exists_identity
  obtain ⟨remembers, -⟩ := Session.after_remembers inj calls s (Session.start_remembers started)
  obtain ⟨⟨_, _, _, _, library, walked⟩, binds⟩ := gives.walked sound
  obtain ⟨⟨_, _, _, _, library', walked'⟩, binds'⟩ := gives'.walked sound
  have classified := (walked.classified library within).2 x mem
  have classified' := (walked'.classified library' within').2 y mem'
  have equal := NamedSpread.beq_iff_alikeBut inj remembers (binds set within x mem)
    (binds' set' within' y mem') classified classified'
  obtain ⟨path, at_⟩ := walked.spread_located library within mem
  obtain ⟨path', at_'⟩ := walked'.spread_located library' within' mem'
  refine ⟨equal, path, path', at_, at_', fun agree => ?_⟩
  rw [equal, (walked'.inlines library'.inlined).wellFormed.number_eq_iff agree at_']

/-- In `query { hero { ...Named } }` and `query { leader: hero { ...Named } }` each query has one entity
beside its root, at `hero` and at `leader`.  Both have the number 1, and the spreads are equal. -/
theorem spreads_on_hero_and_leader_are_equal :
    let hero := Heroes.heroField "hero" [] [.fragmentSpread "Named" []]
    let a := Heroes.query [.field hero]
    let b := Heroes.query [.field { hero with label := some "leader" }]
    let document : Document :=
      ⟨[a, b], [⟨⟨"Named", "Hero", [], [.field Heroes.nameField]⟩, none⟩]⟩
    let calls := [Call.operation a, Call.operation b]
    ∃ (s : Session) (a b : BuiltSelections) (set set' : SelectionSet) (x y : NamedSpread)
      (path path' : FieldPath), Session.start Heroes.schema document 0 = .ok s
      ∧ s.Gives calls a ∧ s.Gives calls b
      ∧ a.rootField.selectionSet.Within set ∧ b.rootField.selectionSet.Within set'
      ∧ x ∈ set.direct.namedFragments ∧ y ∈ set'.direct.namedFragments
      ∧ (x == y) = true ∧ x.typeInfo.entity = y.typeInfo.entity
      ∧ a.entities.pathOf? x.typeInfo.entity = some path
      ∧ b.entities.pathOf? y.typeInfo.entity = some path' ∧ path ≠ path' := by
  intro hero a b document calls
  let spread? := fun (b : Operation) key => (b.built.rootField.follow? [key]).bind fun e =>
    (e.selectionSet.direct.namedFragment? "Named").map fun x => (e, x)
  obtain ⟨s, started, check⟩ := (Option.any_eq_true _ _).mp
    (show ((Session.start Heroes.schema document 0).toOption.any fun s =>
      (s.buildOperation a).1.toOption.any fun a' =>
        ((s.buildOperation a).2.buildOperation b).1.toOption.any fun b' =>
          (spread? a' "hero").any fun x => (spread? b' "leader").any fun y =>
            x.2 == y.2
              && a'.built.entities.pathOf? x.2.typeInfo.entity
                != b'.built.entities.pathOf? y.2.typeInfo.entity) = true by decide +kernel)
  obtain ⟨a', builtA, check⟩ := (Option.any_eq_true _ _).mp check
  obtain ⟨b', builtB, check⟩ := (Option.any_eq_true _ _).mp check
  obtain ⟨⟨e, x⟩, spreadA, check⟩ := (Option.any_eq_true _ _).mp check
  obtain ⟨⟨e', y⟩, spreadB, check⟩ := (Option.any_eq_true _ _).mp check
  obtain ⟨equal, apart⟩ := Bool.and_eq_true_iff.mp check
  have started := eq_ok_of_toOption started
  have givesA : s.Gives calls a'.built := by
    refine ⟨[], .operation a, [.operation b], rfl, ?_⟩
    change Answer.Holds (.operation (s.buildOperation a).1) a'.built
    rw [eq_ok_of_toOption builtA]
    exact .operation
  have givesB : s.Gives calls b'.built := by
    refine ⟨[.operation a], .operation b, [], rfl, ?_⟩
    change Answer.Holds (.operation ((s.buildOperation a).2.buildOperation b).1) b'.built
    rw [eq_ok_of_toOption builtB]
    exact .operation
  have inside {o : Operation} {key : Name} {e : EntityField} {x : NamedSpread}
      (found : spread? o key = some (e, x)) :
      o.built.rootField.selectionSet.Within e.selectionSet
        ∧ x ∈ e.selectionSet.direct.namedFragments := by
    obtain ⟨f, follows, found⟩ := Option.bind_eq_some_iff.mp found
    obtain ⟨z, found, same⟩ := Option.map_eq_some_iff.mp found
    cases same
    exact ⟨EntityField.within_follow? follows, List.mem_of_find?_eq_some found⟩
  obtain ⟨withinA, memX⟩ := inside spreadA
  obtain ⟨withinB, memY⟩ := inside spreadB
  obtain ⟨byNumber, path, path', at_, at_', -⟩ := spreads_are_equal_by_number Heroes.schema document
    0 s started calls a'.built b'.built givesA givesB _ _ withinA withinB x y memX memY
  refine ⟨s, a'.built, b'.built, _, _, x, y, path, path', started, givesA, givesB, withinA, withinB,
    memX, memY, equal, (byNumber.mp equal).2, at_, at_', ?_⟩
  rintro rfl
  simp [at_, at_'] at apart

end SelectionGraph
