import SelectionGraph.Proofs.Entity.Inlining

/-!
# Sources — the fields that a tree records were selected

A tree keeps the name and the type that a field was first recorded with, whatever is recorded under
its response key later.  Both are always those of a field that the walk of the definition meets on the
same entity and in the same scope.

* `SelectionTree.Records`, `EntityStorage.Records` — a field is recorded with a name and a type;
* `MeetsField`        — a field of a name and a type is met on an entity, in a scope;
* `Walked.records`    — what a walk records it meets, or it was recorded before;
* `Session.Builds.sourced` — what is recorded on the entities of a definition its walk meets.
-/

namespace SelectionGraph

/-! ## Trees -/

namespace SelectionTree

variable {t other : SelectionTree} {path : ScopePath} {key name : Name} {type : TypeRef}

/-- A tree records a field of a name and a type, under a response key and in a scope. -/
def Records (t : SelectionTree) (path : ScopePath) (key name : Name) (type : TypeRef) : Prop :=
  ∃ s ∈ t.scopes, (s.1 == path) = true
    ∧ ∃ f ∈ s.2.fields, f.responseKey = key ∧ f.name = name ∧ f.type = type

theorem not_records_empty {types : TypePath} : ¬ (empty types).Records path key name type := by
  simp [Records, empty]

/-- The field that a tree has under a key is recorded. -/
theorem records_of_field? {f : MergedField} (h : t.field? path key = some f) :
    t.Records path key f.name f.type := by
  obtain ⟨s, scope, field⟩ := Option.bind_eq_some_iff.mp h
  obtain ⟨entry, found, rfl⟩ := Option.map_eq_some_iff.mp scope
  have keyed : f.responseKey = key := by simpa using List.find?_some field
  have at_ : (entry.1 == path) = true := by simpa using List.find?_some found
  exact ⟨entry, List.mem_of_find?_eq_some found, at_, f, List.mem_of_find?_eq_some field, keyed, rfl,
    rfl⟩

/-- A field that is there keeps its name and type; a new one brings its own. -/
theorem Records.of_insertField {target : ScopePath} {f : MergedField}
    (h : (t.insertField target f).Records path key name type) :
    t.Records path key name type
      ∨ (target == path) = true ∧ f.responseKey = key ∧ f.name = name ∧ f.type = type := by
  obtain ⟨s, mem, at_, g, memG, named⟩ := h
  rcases Ordered.mem_upsert mem with ⟨before, memBefore, wanted, rfl⟩ | held | rfl
  · rcases Ordered.mem_upsert memG with ⟨g', memG', -, rfl⟩ | held | rfl
    · exact Or.inl ⟨before, memBefore, at_, g', memG', named⟩
    · exact Or.inl ⟨before, memBefore, at_, g, held, named⟩
    · exact Or.inr ⟨BEq.trans (BEq.symm wanted) at_, named⟩
  · exact Or.inl ⟨s, held, at_, g, memG, named⟩
  · rcases Ordered.mem_upsert memG with ⟨g', memG', -, -⟩ | held | rfl
    · cases memG'
    · cases held
    · exact Or.inr ⟨at_, named⟩

theorem Records.of_insertFragment {target : ScopePath} {fragment : Name} {inclusion : Inclusion}
    (h : (t.insertFragment target fragment inclusion).Records path key name type) :
    t.Records path key name type := by
  obtain ⟨s, mem, at_, g, memG, named⟩ := h
  rcases Ordered.mem_upsert mem with ⟨before, memBefore, -, rfl⟩ | held | rfl
  · exact ⟨before, memBefore, at_, g, memG, named⟩
  · exact ⟨s, held, at_, g, memG, named⟩
  · cases memG

/-- Merging a scope records nothing that the scope does not, or the tree before. -/
theorem Records.of_mergeScope {target : ScopePath} {guard : Inclusion} {s : ScopeSelections}
    (h : (t.mergeScope target guard s).Records path key name type) :
    t.Records path key name type ∨ (target == path) = true
      ∧ ∃ f ∈ s.fields, f.responseKey = key ∧ f.name = name ∧ f.type = type := by
  rw [mergeScope_eq] at h
  -- The fragments record no field.
  have fields : (s.fields.foldl (mergeField target guard) t).Records path key name type := by
    refine List.foldlRecOn (motive := fun u : SelectionTree => u.Records path key name type → _)
      s.fragments _ id ?_ h
    intro u before g _ after
    refine before ?_
    unfold mergeFragment at after
    split at after
    · exact after
    · exact after.of_insertFragment
  refine List.foldlRecOn (motive := fun u : SelectionTree => u.Records path key name type → _)
    s.fields _ Or.inl ?_ fields
  intro u before f mem after
  unfold mergeField at after
  split at after
  · exact before after
  · rcases after.of_insertField with earlier | ⟨at_, named⟩
    · exact before earlier
    · exact Or.inr ⟨at_, f, mem, named⟩

/-- Merging a tree records nothing but what one of the two records. -/
theorem Records.of_mergeTree {site : ScopePath} {guard : Inclusion}
    (h : (t.mergeTree other site guard).Records path key name type) :
    t.Records path key name type
      ∨ ∃ below, (site.concat below == path) = true ∧ other.Records below key name type := by
  refine List.foldlRecOn (motive := fun u : SelectionTree => u.Records path key name type → _)
    other.scopes _ Or.inl ?_ h
  intro u before s mem after
  rcases after.of_mergeScope with earlier | ⟨at_, recorded⟩
  · exact before earlier
  · exact Or.inr ⟨s.1, at_, s, mem, BEq.refl _, recorded⟩

end SelectionTree

/-! ## Storages -/

namespace EntityStorage

variable {s s' : EntityStorage} {path : FieldPath} {scope : ScopePath} {key name : Name}
  {type : TypeRef}

/-- The entity at a path records a field. -/
def Records (s : EntityStorage) (path : FieldPath) (scope : ScopePath) (key name : Name)
    (type : TypeRef) : Prop :=
  ∃ e ∈ s.entities, e.location.path = path ∧ e.tree.Records scope key name type

theorem not_records_start {source : SourceDefinition} :
    ¬ (start source).Records path scope key name type := by
  simp [Records, start, SelectionTree.not_records_empty]

theorem Records.of_entityAt {location : Location} {types : TypePath} {e : Entity}
    (found : s.entityAt location types = (e, s')) (h : s'.Records path scope key name type) :
    s.Records path scope key name type := by
  unfold entityAt at found
  split at found
  · cases found
    exact h
  · cases found
    obtain ⟨d, mem, at_, recorded⟩ := h
    rcases List.mem_append.mp mem with held | new
    · exact ⟨d, held, at_, recorded⟩
    · rw [List.mem_singleton.mp new] at recorded
      exact absurd recorded SelectionTree.not_records_empty

theorem Records.of_entityForField {enclosing id : EntityId} {component : PathComponent}
    (found : s.entityForField enclosing component = .ok (id, s'))
    (h : s'.Records path scope key name type) : s.Records path scope key name type := by
  obtain ⟨e, -, result⟩ := bind_eq_ok.mp found
  cases result
  exact h.of_entityAt rfl

/-- After a change of one tree, what is recorded was recorded before, or is by the changed tree. -/
theorem Records.of_modifyTree {id : EntityId} {change : SelectionTree → SelectionTree}
    (h : (s.modifyTree id change).Records path scope key name type) :
    s.Records path scope key name type
      ∨ ∃ e, s.get? id = some e ∧ e.location.path = path
        ∧ (change e.tree).Records scope key name type := by
  obtain ⟨d, mem, at_, recorded⟩ := h
  obtain ⟨i, found⟩ := List.mem_iff_getElem?.mp mem
  rw [modifyTree, List.getElem?_modify, Option.map_eq_map, Option.map_eq_some_iff] at found
  obtain ⟨e, before, rfl⟩ := found
  by_cases same : id.index = i
  · rw [if_pos same] at at_ recorded
    subst same
    exact Or.inr ⟨e, before, at_, recorded⟩
  · rw [if_neg same] at at_ recorded
    exact Or.inl ⟨e, List.mem_of_getElem? before, at_, recorded⟩

theorem Records.of_insertField {id : EntityId} {entity : FieldPath}
    (located : s.pathOf? id = some entity) {target : ScopePath} {f : MergedField}
    (h : (s.modifyTree id (·.insertField target f)).Records path scope key name type) :
    s.Records path scope key name type
      ∨ path = entity ∧ (target == scope) = true
        ∧ f.responseKey = key ∧ f.name = name ∧ f.type = type := by
  rcases h.of_modifyTree with before | ⟨e, get, rfl, after⟩
  · exact Or.inl before
  · rcases after.of_insertField with held | new
    · exact Or.inl ⟨e, List.mem_of_getElem? get, rfl, held⟩
    · rw [pathOf?, get] at located
      exact Or.inr ⟨Option.some.inj located, new⟩

theorem Records.of_insertFragment {id : EntityId} {target : ScopePath} {fragment : Name}
    {inclusion : Inclusion}
    (h : (s.modifyTree id (·.insertFragment target fragment inclusion)).Records path scope key name
      type) : s.Records path scope key name type := by
  rcases h.of_modifyTree with before | ⟨e, get, at_, after⟩
  · exact before
  · exact ⟨e, List.mem_of_getElem? get, at_, after.of_insertFragment⟩

/-- One entity of a fragment records below the site what its tree records. -/
theorem Records.of_mergeEntity {site added : Entity} {target : ScopePath} {guard : Inclusion}
    {fragmentRoot : Name} (wellFormed : s.WellFormed)
    (source : site.location.source = s.source)
    (typedAdded : added.tree.typePath.toList = fragmentRoot :: added.location.path.types)
    (merged : s.mergeEntity site target guard added = .ok s')
    (h : s'.Records path scope key name type) :
    s.Records path scope key name type
      ∨ path = site.location.path.appendAll added.location.path.components
        ∧ ∃ below, ((innerScope target added.location.path).concat below == scope) = true
          ∧ added.tree.Records below key name type := by
  obtain ⟨location, types, e, u, sourceL, pathL, -, found, rfl⟩ := mergeEntity_spec typedAdded merged
  obtain ⟨get, pathE⟩ := get?_entityAt wellFormed (sourceL.trans source) found
  rcases h.of_modifyTree with before | ⟨d, get', rfl, after⟩
  · exact Or.inl (before.of_entityAt found)
  · cases get.symm.trans get'
    rcases after.of_mergeTree with held | ⟨below, at_, recorded⟩
    · have before : u.Records e.location.path scope key name type :=
        ⟨e, List.mem_of_getElem? get, rfl, held⟩
      exact Or.inl (before.of_entityAt found)
    · exact Or.inr ⟨pathE.trans pathL, below, at_, recorded⟩

/-- A fragment records below the site what it records by itself. -/
theorem Records.of_mergeFragmentEntities {fragment : EntityStorage} (wellFormed : s.WellFormed)
    (wellFormedF : fragment.WellFormed) {id : EntityId} {site : FieldPath}
    (located : s.pathOf? id = some site) {target : ScopePath} {guard : Inclusion}
    (merged : s.mergeFragmentEntities id target guard fragment = .ok s')
    (h : s'.Records path scope key name type) :
    s.Records path scope key name type
      ∨ ∃ q below, path = site.appendAll q.components
        ∧ ((innerScope target q).concat below == scope) = true
        ∧ fragment.Records q below key name type := by
  obtain ⟨e, get, rfl⟩ := pathOf?_eq_some_iff.mp located
  refine mergeFragmentEntities_induction wellFormed wellFormedF get
    (P := fun _ t => t.Records path scope key name type → _) ?_ Or.inl merged h
  intro earlier d t t' mem wellFormedT source one _ before after
  rcases after.of_mergeEntity wellFormedT source (wellFormedF.types d mem) one with
    held | ⟨at_, below, same, recorded⟩
  · exact before held
  · exact Or.inr ⟨_, below, at_, same, d, mem, rfl, recorded⟩

end EntityStorage

/-! ## Walks -/

variable {view : SchemaView} {document : Document}

/-- Among what is met is a field of a response key, name and type on an entity, in a scope. -/
def MeetsField (met : Place → Selection → Inclusion → Prop) (path : FieldPath) (scope : ScopePath)
    (key name : Name) (type : TypeRef) : Prop :=
  ∃ q f c, met q (.field f) c ∧ q.entity = path ∧ (q.scope == scope) = true
    ∧ f.responseKey = key ∧ f.name = name ∧ f.type = type

theorem MeetsField.imp {met met' : Place → Selection → Inclusion → Prop} {path : FieldPath}
    {scope : ScopePath} {key name : Name} {type : TypeRef}
    (h : MeetsField met path scope key name type) (sub : ∀ q t c, met q t c → met' q t c) :
    MeetsField met' path scope key name type := by
  obtain ⟨q, f, c, met, selected⟩ := h
  exact ⟨q, f, c, sub _ _ _ met, selected⟩

/-- Whatever a storage records is selected by what is met. -/
def EntityStorage.Sourced (s : EntityStorage) (met : Place → Selection → Inclusion → Prop) : Prop :=
  ∀ path scope key name type,
    s.Records path scope key name type → MeetsField met path scope key name type

/-- What a fragment records at a spread the walk from there selects in it. -/
theorem EntityStorage.Sourced.below {fragment : EntityStorage} {type : Name} {ss : List Selection}
    (sourced : fragment.Sourced (Meets view document (.root type) ss)) {site : Place}
    (typed : site.type = type) {q : FieldPath} {below scope : ScopePath} {key name : Name}
    {fieldType : TypeRef} (recorded : fragment.Records q below key name fieldType)
    (same : ((innerScope site.scope q).concat below == scope) = true) :
    MeetsField (Meets view document site ss) (site.entity.appendAll q.components) scope key name
      fieldType := by
  obtain ⟨p, f, c, met, rfl, at_, named⟩ := sourced _ _ _ _ _ recorded
  refine ⟨site.lift p, f, c, (meets_site typed).mpr ⟨p, met, rfl⟩, rfl, ?_, named⟩
  rw [Place.lift_scope]
  exact BEq.trans (ScopePath.concat_congr BEq.rfl at_) same

/-- What a walk records it meets, unless it was recorded before.  The induction is on the walk; its
fragments are those for which this is known. -/
theorem Walked.records {built : List NamedFragment}
    (fragments : ∀ g ∈ built, g.Inlined view document)
    (sourced : ∀ g ∈ built, g.built.entities.Sourced
      (Meets view document (.root g.definition.typeCondition) g.definition.selections))
    {info : TypeInfo} {direct direct' : DirectSelections} {draft draft' : Draft} {ss : List Selection}
    (h : Walked view built info direct draft ss direct' draft') :
    ∀ {path : FieldPath}, draft.entities.WellFormed → draft.entities.pathOf? info.entity = some path →
      ∀ {p : FieldPath} {scope : ScopePath} {key name : Name} {type : TypeRef},
        draft'.entities.Records p scope key name type →
        draft.entities.Records p scope key name type
          ∨ MeetsField (Meets view document (info.place path) ss) p scope key name type := by
  induction h with
  | nil => exact fun _ _ _ _ _ _ _ => Or.inl
  | skipped _ _ ih =>
      intro path wf at_ p scope key name type recorded
      refine (ih wf at_ recorded).imp_right fun selects => selects.imp fun q t c => ?_
      exact Meets.mono fun _ => List.mem_cons_of_mem _
  | @leaf info direct direct₁ direct' draft draft' f ss inclusion included isLeaf added _ ih =>
      intro path wf at_ p scope key name type recorded
      have first := adds_leaf wf at_ isLeaf inclusion
      rcases ih first.wellFormed (first.extended.paths _ _ at_) recorded with before | later
      · refine (EntityStorage.Records.of_insertField at_ before).imp_right ?_
        rintro ⟨rfl, same, named⟩
        exact ⟨_, f, inclusion, .here List.mem_cons_self rfl included, rfl, same, named⟩
      · exact Or.inr (later.imp fun q t c => Meets.mono fun _ => List.mem_cons_of_mem _)
  | @entity info direct below direct₁ direct' draft draft₁ draft' entities entity f ss inclusion
      included isComposite selected inner added _ ihInner ih =>
      intro path wf at_ p scope key name type recorded
      -- It was recorded by the later selections, below the field, for the field itself, or before.
      obtain ⟨first, at'⟩ := adds_entity wf at_ isComposite inclusion selected
      have after := first.trans (inner.adds fragments first.wellFormed at')
      rcases ih after.wellFormed (after.extended.paths _ _ at_) recorded with before | later
      · rcases ihInner first.wellFormed at' before with before | inside
        · refine (EntityStorage.Records.of_insertField at_
            (before.of_entityForField selected)).imp_right ?_
          rintro ⟨rfl, same, named⟩
          exact ⟨_, f, inclusion, .here List.mem_cons_self rfl included, rfl, same, named⟩
        · refine Or.inr (inside.imp fun q t c met => ?_)
          exact .field (p := info.place path) List.mem_cons_self included isComposite met
      · exact Or.inr (later.imp fun q t c => Meets.mono fun _ => List.mem_cons_of_mem _)
  | @flat info direct direct₁ direct' draft draft₁ draft' condition directives inner ss verdict
      conditions deferral read opened deferred flattens inside _ ihInside ih =>
      intro path wf at_ p scope key name type recorded
      have first := inside.adds fragments wf at_
      rcases ih first.wellFormed (first.extended.paths _ _ at_) recorded with before | later
      · refine (ihInside wf at_ before).imp_right fun selects => selects.imp fun q t c met => ?_
        refine .inline List.mem_cons_self read opened ?_
        rw [Deferral.said_eq deferred, TypeInfo.enter_place_flat flattens]
        exact met
      · exact Or.inr (later.imp fun q t c => Meets.mono fun _ => List.mem_cons_of_mem _)
  | @inline info direct below direct₁ direct' draft draft₁ draft' condition directives inner ss
      verdict conditions deferral read opened deferred opens inside added _ ihInside ih =>
      intro path wf at_ p scope key name type recorded
      have first := inside.adds fragments wf at_
      rcases ih first.wellFormed (first.extended.paths _ _ at_) recorded with before | later
      · refine (ihInside wf at_ before).imp_right fun selects => selects.imp fun q t c met => ?_
        refine .inline List.mem_cons_self read opened ?_
        rw [Deferral.said_eq deferred, TypeInfo.enter_place view opens]
        exact met
      · exact Or.inr (later.imp fun q t c => Meets.mono fun _ => List.mem_cons_of_mem _)
  | @spread info direct direct₁ direct' draft draft' entities fragmentName directives ss inclusion
      deferral fragment included deferred found merged added _ ih =>
      intro path wf at_ p scope key name type recorded
      obtain ⟨mem, named⟩ := NamedFragment.mem_of_find? found
      obtain ⟨⟨d, defined, same⟩, inlines⟩ := fragments fragment mem
      rw [named] at defined
      have site := Walk.spreadSite_place view info path fragment.definition.typeCondition inclusion
      rw [site.1, site.2] at merged
      have first := adds_fragment wf inlines ((info.place path).follow _ inclusion) rfl rfl at_ merged
      have second := adds_reference view first.wellFormed (first.extended.paths _ _ at_) fragment.name
        directives inclusion
      rcases ih second.wellFormed (second.extended.paths _ _ (first.extended.paths _ _ at_)) recorded
        with before | later
      · refine (EntityStorage.Records.of_mergeFragmentEntities wf inlines.wellFormed at_ merged
          before.of_insertFragment).imp_right ?_
        rintro ⟨q, below, rfl, at', inside⟩
        -- The fragment's own walk meets it, and the spread leads that walk to where it is merged.
        have typed : ((info.place path).follow fragment.definition.typeCondition inclusion).type
            = fragment.definition.typeCondition := rfl
        have selects := (sourced fragment mem).below typed inside at'
        refine selects.imp fun q t c met => .spread List.mem_cons_self included defined ?_
        rw [same]
        exact met
      · exact Or.inr (later.imp fun q t c => Meets.mono fun _ => List.mem_cons_of_mem _)

/-! ## Definitions -/

theorem WalkedFrom.sourced {built : List NamedFragment}
    (fragments : ∀ g ∈ built, g.Inlined view document)
    (sourced : ∀ g ∈ built, g.built.entities.Sourced
      (Meets view document (.root g.definition.typeCondition) g.definition.selections))
    {source : SourceDefinition} {rootName : Name} {b : BuiltSelections}
    (h : WalkedFrom view built source rootName b) :
    b.entities.Sourced
      (Meets view document (.root source.definition.rootType) source.definition.selections) := by
  obtain ⟨direct, draft, walked, rfl⟩ := h
  have start := EntityStorage.start_wellFormed source
  have root : (source.info view).place .root = .root source.definition.rootType :=
    congrArg Place.root source.rootType_eq
  intro path scope key name type recorded
  rcases walked.records fragments sourced start start.rootFirst recorded with before | selects
  · exact absurd before EntityStorage.not_records_start
  · rwa [root] at selects

theorem Library.sourced {built : List NamedFragment} (h : Library view document built) :
    ∀ g ∈ built, g.built.entities.Sourced
      (Meets view document (.root g.definition.typeCondition) g.definition.selections) :=
  h.induction fun _ _ _ _ _ _ library earlier _ walked => walked.sourced library.inlined earlier

/-- What the entities of a definition record the walk of the definition meets. -/
theorem Session.Builds.sourced {s : Session} (reachable : s.Reachable document)
    {definition : ExecutableDefinition} {b : BuiltSelections} (h : s.Builds definition b) :
    b.entities.Sourced
      (Meets s.view document (.root definition.rootType) definition.selections) := by
  obtain ⟨built, id, rootName, library, walked⟩ := h.walked reachable
  exact walked.sourced library.inlined library.sourced

end SelectionGraph
