import SelectionGraph.Proofs.Entity.Reached
import SelectionGraph.Proofs.Entity.SameTrees
import SelectionGraph.Proofs.Session.Rearranged

/-!
# Order — entities do not depend on the order of selections

Which entity comes first, and whether a spread is walked before or after a field that reaches the same
entity, depends on the order of the selections.  What is read of the entities does not: it is what the
walk meets, and what is read of the fragments that it comes to spreads of.

* `NamedFragment.Alike`    — two builds of a fragment that nothing which spreads it tells apart;
* `PutsMet.rearranged`     — rearranged selections put the same entries, if fragments are alike;
* `Library.alike`          — fragments of rearranged documents are alike, by induction on the library;
* `order_of_selections_does_not_matter` — operations of rearranged documents are built alike.
-/

namespace SelectionGraph

variable {view view' : SchemaView} {document document' : Document} {built built' : List NamedFragment}
  {τ : Inclusion → Prop}

/-! ## Entries -/

/-- Two builds of a fragment that nothing which spreads it tells apart. -/
structure NamedFragment.Alike (g g' : NamedFragment) : Prop where
  typeCondition : g'.definition.typeCondition = g.definition.typeCondition
  entries : g.built.entities.SameEntries g'.built.entities

/-- Fragments that are found under one name are alike. -/
def AllAlike (built built' : List NamedFragment) : Prop :=
  ∀ name g g', NamedFragment.find? built name = some g → NamedFragment.find? built' name = some g' →
    g.Alike g'

theorem AllAlike.symm (h : AllAlike built built') : AllAlike built' built := by
  intro name g' g found' found
  have alike := h name g g' found found'
  exact ⟨alike.typeCondition.symm, alike.entries.symm⟩

section Entries

variable (composite : ∀ name, view.isComposite name = view'.isComposite name)

include composite

/-- Rearranged selections put the same entries, if the fragments that they spread are alike. -/
theorem PutsMet.rearranged (respects : Inclusion.Respects τ) (alike : AllAlike built built')
    {ss ts : List Selection} (r : Rearranged ss ts)
    (found' : ∀ name, Spreads view' ts name → ∃ g, NamedFragment.find? built' name = some g)
    {p : Place} {path : FieldPath} {scope : ScopePath} {slot : Slot}
    (h : PutsMet built τ (MeetsOwn view p ss) path scope slot) :
    PutsMet built' τ (MeetsOwn view' p ts) path scope slot := by
  obtain ⟨q, t, c, met, puts⟩ := h
  have nothing : Document.Rearranged ⟨[], []⟩ ⟨[], []⟩ := ⟨.nil, .nil⟩
  obtain ⟨t', met', same⟩ := Meets.rearranged composite nothing met r
  refine ⟨q, t', c, met', ?_⟩
  rcases puts with ⟨slotted, own⟩ | ⟨name, directives, g, rfl, found, below⟩
  · exact Or.inl ⟨same.slot?.trans slotted, own⟩
  · obtain rfl := same.eq_spread
    obtain ⟨g', foundG'⟩ := found' name ⟨directives, MeetsOwn.visited met'⟩
    have alikeG := alike name g g' found foundG'
    refine Or.inr ⟨name, directives, g', rfl, foundG', ?_⟩
    rw [alikeG.typeCondition]
    exact alikeG.entries.below respects below

/-- Walks of rearranged selections, with fragments that are alike, end with the same entries. -/
theorem WalkedFrom.sameEntries (library : Library view document built)
    (library' : Library view' document' built') (alike : AllAlike built built')
    {source source' : SourceDefinition} {rootName rootName' : Name} {b b' : BuiltSelections}
    (h : WalkedFrom view built source rootName b) (h' : WalkedFrom view' built' source' rootName' b')
    (r : source.definition.Rearranged source'.definition) :
    b.entities.SameEntries b'.entities := by
  refine EntityStorage.sameEntries_of_additive (h.inlines library.inlined).wellFormed
    (h'.inlines library'.inlined).wellFormed ?_
  intro τ additive respects path scope slot
  -- Either storage has what its own walk puts, whatever the order.
  rw [h.reads_entries additive library.inlined, h'.reads_entries additive library'.inlined, r.rootType]
  exact ⟨PutsMet.rearranged composite respects alike r.selections fun _ => h'.found,
    PutsMet.rearranged (fun name => (composite name).symm) respects alike.symm r.selections.symm
      fun _ => h.found⟩

/-- Fragments that are built from rearranged documents are alike.  The induction is on the fragments
of one of them, each of which was walked with those before it. -/
theorem Library.alike (documents : document.Rearranged document')
    (library : Library view document built) (library' : Library view' document' built') :
    AllAlike built built' := by
  suffices each : ∀ g ∈ built, ∀ built', Library view' document' built' →
      ∀ g', NamedFragment.find? built' g.name = some g' → g.Alike g' by
    intro name g g' found found'
    obtain ⟨mem, named⟩ := NamedFragment.mem_of_find? found
    exact each g mem built' library' g' (by rw [named]; exact found')
  refine library.induction ?_
  intro built f name text id b library earlier defined walked built' library' g' found'
  obtain ⟨mem', named'⟩ := NamedFragment.mem_of_find? found'
  obtain ⟨f', defined', sameF'⟩ := library'.defined g' mem'
  obtain ⟨f'', defined'', r⟩ := documents.fragment? defined
  obtain rfl := Document.name_of_fragment? defined
  rw [named'] at defined'
  cases defined'.symm.trans defined''
  obtain ⟨before, id', rootName', libraryBefore, walked'⟩ := library'.walked g' mem'
  rw [← sameF'] at walked'
  -- What the fragment spreads was built before it, in both sessions.
  have alike : AllAlike built before := by
    intro name h h' found found'
    obtain ⟨mem, named⟩ := NamedFragment.mem_of_find? found
    exact earlier h mem before libraryBefore h' (by rw [named]; exact found')
  refine ⟨?_, walked.sameEntries composite library libraryBefore alike walked' (.fragment r)⟩
  obtain ⟨_, -, eq⟩ := r
  rw [← sameF', eq]

end Entries

/-! ## Operations -/

theorem TypePath.toList_injective {p q : TypePath} (h : p.toList = q.toList) : p = q := by
  obtain ⟨enclosing, own⟩ := List.append_inj' h rfl
  cases p
  cases q
  cases enclosing
  cases own
  rfl

/-- A session of a document builds an operation of it exactly if that has no fault. -/
theorem Session.exists_buildOperation_iff {s : Session} (reachable : s.Reachable document)
    {o : Sourced OperationDefinition} (mem : o ∈ document.operations) :
    (∃ b, (s.buildOperation o).1 = .ok b)
      ↔ ¬ (ExecutableDefinition.operation o.definition).Faulty s.view document := by
  constructor
  · rintro ⟨b, answer⟩
    obtain ⟨built, id, rootName, library, walked⟩ := (Session.Builds.operation answer).walked reachable
    exact walked.not_faulty library
  · intro sound
    cases answer : (s.buildOperation o).1 with
    | ok b => exact ⟨b, rfl⟩
    | error e =>
        have defined : document.Defines (.operation o.definition) := ⟨o.text, mem⟩
        have outcome := Session.Outcome.operation (s := s) o
        rw [answer] at outcome
        exact absurd (outcome.faulty reachable defined).1 sound

section Rearranged

variable (composite : ∀ name, view.isComposite name = view'.isComposite name)
  (documents : document.Rearranged document') {p : Place} {ss ts : List Selection}
  (r : Rearranged ss ts)

include composite documents r

theorem Reaches.rearranged {path : FieldPath} (h : Reaches view (Meets view document p ss) path) :
    Reaches view' (Meets view' document' p ts) path := by
  obtain ⟨q, f, c, met, isComposite, rfl⟩ := h
  obtain ⟨t, met', same⟩ := met.rearranged composite documents r
  obtain ⟨selections, rfl, -⟩ := same.exists_field
  exact ⟨q, _, c, met', (composite _).symm.trans isComposite, rfl⟩

theorem MeetsField.rearranged {path : FieldPath} {scope : ScopePath} {key name : Name}
    {type : TypeRef} (h : MeetsField (Meets view document p ss) path scope key name type) :
    MeetsField (Meets view' document' p ts) path scope key name type := by
  obtain ⟨q, f, c, met, selected⟩ := h
  obtain ⟨t, met', same⟩ := met.rearranged composite documents r
  obtain ⟨selections, rfl, -⟩ := same.exists_field
  exact ⟨q, _, c, met', selected⟩

end Rearranged

/-- Fields that agree are met with one name and one type. -/
theorem FieldsAgree.unique {met : Place → Selection → Inclusion → Prop} (agree : FieldsAgree met)
    {path : FieldPath} {scope : ScopePath} {key name name' : Name} {type type' : TypeRef}
    (h : MeetsField met path scope key name type) (h' : MeetsField met path scope key name' type') :
    name = name' ∧ type = type' := by
  obtain ⟨q, f, c, met, entity, same, keyed, rfl, rfl⟩ := h
  obtain ⟨q', f', c', met', entity', same', keyed', rfl, rfl⟩ := h'
  exact agree _ _ _ _ _ _ met met' (entity.trans entity'.symm) (BEq.trans same (BEq.symm same'))
    (keyed.trans keyed'.symm)

/-- The entities of rearranged definitions at one path have equal trees. -/
theorem WalkedFrom.tree_beq (composite : ∀ name, view.isComposite name = view'.isComposite name)
    (documents : document.Rearranged document') (library : Library view document built)
    (library' : Library view' document' built') {source source' : SourceDefinition}
    {rootName rootName' : Name} {b b' : BuiltSelections}
    (h : WalkedFrom view built source rootName b) (h' : WalkedFrom view' built' source' rootName' b')
    (r : source.definition.Rearranged source'.definition)
    (agree : FieldsAgree
      (Meets view document (.root source.definition.rootType) source.definition.selections))
    {e e' : Entity} (mem : e ∈ b.entities.entities) (mem' : e' ∈ b'.entities.entities)
    (path : e.location.path = e'.location.path) : (e.tree == e'.tree) = true := by
  have wellFormed := (h.inlines library.inlined).wellFormed
  have wellFormed' := (h'.inlines library'.inlined).wellFormed
  refine SelectionTree.beq_of_reads (wellFormed.keyed e mem) (wellFormed'.keyed e' mem')
    ((h.arises library.arise).filled e mem) ((h'.arises library'.arise).filled e' mem') ?types ?same
    ?named
  case types =>
    apply TypePath.toList_injective
    rw [wellFormed.types e mem, wellFormed'.types e' mem', path, h.source_entities library,
      h'.source_entities library', SourceDefinition.rootType_eq, SourceDefinition.rootType_eq,
      r.rootType]
  case same =>
    intro τ respects scope slot
    have entries := h.sameEntries composite library library'
      (library.alike composite documents library') h' r
    rw [← wellFormed.reads_iff mem, ← wellFormed'.reads_iff mem', ← path]
    exact entries τ respects _ _ _
  case named =>
    -- Each tree records a field that its own walk meets, and both walks meet the same ones.
    intro scope key name type name' type' recorded recorded'
    have met := h.sourced library.inlined library.sourced _ _ _ _ _ ⟨e, mem, rfl, recorded⟩
    have met' := h'.sourced library'.inlined library'.sourced _ _ _ _ _ ⟨e', mem', path.symm, recorded'⟩
    rw [r.rootType] at met'
    exact agree.unique met (met'.rearranged (fun name => (composite name).symm) documents.symm
      r.selections.symm)

/-- The order of selections does not matter to the entities.  Where the selections of a document are
rearranged, in its operations and fragments and at any depth, an operation is built in a session of
the one document exactly if it is in a session of the other.  Then there are entities at the same
paths with equal trees, and the operation refers to the same fragments and contains a deferred one or
not, alike.  The fields that meet in one place have to agree on name and type, as the first of them
decides what a tree records. -/
theorem order_of_selections_does_not_matter (document document' : Document)
    (documents : document.Rearranged document') (s s' : Session) (reachable : s.Reachable document)
    (reachable' : s'.Reachable document') (schema : s'.view.schema = s.view.schema)
    (o o' : Sourced OperationDefinition) (mem : o ∈ document.operations)
    (mem' : o' ∈ document'.operations) (r : o.definition.Rearranged o'.definition)
    (agree : FieldsAgree
      (Meets s.view document (.root o.definition.rootType) o.definition.selections)) :
    ((∃ b, (s.buildOperation o).1 = .ok b) ↔ ∃ b', (s'.buildOperation o').1 = .ok b')
      ∧ ∀ b b', (s.buildOperation o).1 = .ok b → (s'.buildOperation o').1 = .ok b' →
        (∀ path, b.built.entities.Has path ↔ b'.built.entities.Has path)
          ∧ (∀ e ∈ b.built.entities.entities, ∀ e' ∈ b'.built.entities.entities,
            e.location.path = e'.location.path → (e.tree == e'.tree) = true)
          ∧ (∀ name, name ∈ b.built.referenced.map NamedFragment.name
            ↔ name ∈ b'.built.referenced.map NamedFragment.name)
          ∧ b.built.containsDeferred = b'.built.containsDeferred := by
  have composite : ∀ name, s.view.isComposite name = s'.view.isComposite name := by
    intro name
    rw [SchemaView.isComposite, SchemaView.isComposite, schema]
  have back : ∀ name, s'.view.isComposite name = s.view.isComposite name :=
    fun name => (composite name).symm
  have rD : (ExecutableDefinition.operation o.definition).Rearranged (.operation o'.definition) :=
    .operation r
  refine ⟨?_, ?_⟩
  · rw [Session.exists_buildOperation_iff reachable mem,
      Session.exists_buildOperation_iff reachable' mem']
    exact not_congr ⟨fun faulty => faulty.rearranged composite documents r,
      fun faulty => faulty.rearranged back documents.symm r.symm⟩
  intro b b' answer answer'
  have builds := Session.Builds.operation answer
  have builds' := Session.Builds.operation answer'
  obtain ⟨built, id, rootName, library, walked⟩ := builds.walked reachable
  obtain ⟨built', id', rootName', library', walked'⟩ := builds'.walked reachable'
  have inlines := walked.inlines library.inlined
  have inlines' := walked'.inlines library'.inlined
  refine ⟨?paths, ?trees, ?names, ?defers⟩
  case paths =>
    intro path
    rw [inlines.has, inlines'.has, rD.rootType]
    exact or_congr_right ⟨fun reaches => reaches.rearranged composite documents rD.selections,
      fun reaches => reaches.rearranged back documents.symm rD.selections.symm⟩
  case trees =>
    intro e memE e' memE' path
    exact walked.tree_beq composite documents library library' walked' rD agree memE memE' path
  case names =>
    intro name
    rw [(walked.lists library library.lists).mem_iff, (walked'.lists library' library'.lists).mem_iff]
    exact ⟨fun leads => leads.rearranged composite documents rD.selections,
      fun leads => leads.rearranged back documents.symm rD.selections.symm⟩
  case defers =>
    rw [Bool.eq_iff_iff, builds.deferred_iff reachable, builds'.deferred_iff reachable']
    exact ⟨fun defers => defers.rearranged composite documents rD,
      fun defers => defers.rearranged back documents.symm rD.symm⟩

/-- Whether the friend of a hero is selected before or after a fragment that selects the friend too,
the same entities have the same trees. -/
theorem friend_before_or_after_spread :
    let friend := Heroes.heroField "friend" [] [.field Heroes.nameField]
    let spread := Selection.fragmentSpread "Friendly" []
    let o := Heroes.query [.field (Heroes.heroField "hero" [] [.field friend, spread])]
    let o' := Heroes.query [.field (Heroes.heroField "hero" [] [spread, .field friend])]
    let friendly : Sourced FragmentDefinition := ⟨⟨"Friendly", "Hero", [], [.field friend]⟩, none⟩
    ∃ (s s' : Session) (b b' : Operation), s.Reachable ⟨[o], [friendly]⟩
      ∧ s'.Reachable ⟨[o'], [friendly]⟩
      ∧ (s.buildOperation o).1 = .ok b ∧ (s'.buildOperation o').1 = .ok b'
      ∧ (∀ path, b.built.entities.Has path ↔ b'.built.entities.Has path)
      ∧ ∀ e ∈ b.built.entities.entities, ∀ e' ∈ b'.built.entities.entities,
        e.location.path = e'.location.path → (e.tree == e'.tree) = true := by
  intro friend spread o o' friendly
  obtain ⟨s, b, reachable, known, answer, -⟩ :=
    Session.exists_buildOperation ⟨[o], [friendly]⟩ Heroes.schema o (fun _ => true) (by decide +kernel)
  obtain ⟨s', b', reachable', known', answer', -⟩ :=
    Session.exists_buildOperation ⟨[o'], [friendly]⟩ Heroes.schema o' (fun _ => true)
      (by decide +kernel)
  have inHero : Rearranged [.field friend, spread] [spread, .field friend] :=
    .of_perm (List.Perm.swap _ _ _)
  have operation : o.definition.Rearranged o'.definition :=
    ⟨_, .field (Heroes.heroField "hero" [] [.field friend, spread]) inHero .nil, rfl⟩
  have fragment : friendly.definition.Rearranged friendly.definition := ⟨_, .refl _, rfl⟩
  have documents : Document.Rearranged ⟨[o], [friendly]⟩ ⟨[o'], [friendly]⟩ :=
    ⟨.cons operation .nil, .cons fragment .nil⟩
  -- Only the hero, the friend and the name are met, each under a key of its own.
  have fields : ∀ q f c, Meets s.view ⟨[o], [friendly]⟩ (.root "Query") o.definition.selections q
      (.field f) c → f = Heroes.heroField "hero" [] [.field friend, spread] ∨ f = friend
        ∨ f = Heroes.nameField := by
    intro q f c h
    have inFriend : ∀ {p}, Meets s.view ⟨[o], [friendly]⟩ p [.field friend] q (.field f) c →
        f = friend ∨ f = Heroes.nameField := by
      intro p h
      rcases (meets_field rfl).mp h with ⟨-, ⟨⟩, -⟩ | ⟨-, h⟩
      · exact Or.inl rfl
      rcases (meets_field rfl).mp h with ⟨-, ⟨⟩, -⟩ | ⟨-, h⟩
      · exact Or.inr rfl
      · exact absurd h not_meets_nil
    rcases (meets_field rfl).mp h with ⟨-, ⟨⟩, -⟩ | ⟨-, h⟩
    · exact Or.inl rfl
    rcases (meets_cons _ _).mp h with h | h
    · exact Or.inr (inFriend h)
    · rcases (meets_spread rfl rfl).mp h with ⟨-, ⟨⟩, -⟩ | h
      exact Or.inr (inFriend h)
  have agree : FieldsAgree
      (Meets s.view ⟨[o], [friendly]⟩ (.root o.definition.rootType) o.definition.selections) := by
    intro q f c q' f' c' met met' _ _ key
    rcases fields _ _ _ met with rfl | rfl | rfl <;> rcases fields _ _ _ met' with rfl | rfl | rfl
    all_goals first | exact ⟨rfl, rfl⟩ | exact absurd key (by decide)
  obtain ⟨paths, trees, -⟩ := (order_of_selections_does_not_matter _ _ documents s s' reachable
    reachable' (known'.trans known.symm) o o' (List.mem_singleton_self o) (List.mem_singleton_self o')
    operation agree).2 b b' answer answer'
  exact ⟨s, s', b, b', reachable, reachable', answer, answer', paths, trees⟩

end SelectionGraph
