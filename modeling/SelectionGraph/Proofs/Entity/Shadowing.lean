import SelectionGraph.Proofs.Document.Mergeable
import SelectionGraph.Proofs.Document.Resolved
import SelectionGraph.Proofs.Entity.Sources
import SelectionGraph.Proofs.Entity.Walkable

/-!
# Shadowing — fields that meet under one key of a mergeable definition

A tree has one field for a response key in a scope, the first that was recorded there.  Where the
fields of a definition can share their keys, all that meet under one key have one shape.  They are one
field, unless an entity on the way is reached through fields of two different object types: an entity
is found by response keys, so that what is selected for the one object meets what is selected for the
other.

* `Meets.parent`      — a field stands in the selections of a field that selects its entity;
* `Place.Typed`       — the type selected on follows from the entity and the scope;
* `Meets.defined`     — a field that is met is one of the type selected on;
* `Undivided`         — no entity down to a path is reached through fields of exclusive types;
* `met_fields_induction` — what any two fields have that meet on one entity under one key;
* `shadowed_fields_have_one_shape` — what a tree has under the key of a field that is met.
-/

namespace SelectionGraph

variable {view : SchemaView} {document : Document}

/-! ## Parents -/

/-- A field that is met stands in the set that the walk starts in, or in that of a field which is met
and selects its entity. -/
theorem Meets.parent {p q : Place} {ss : List Selection} {f : FieldSelection} {c : Inclusion}
    (h : Meets view document p ss q (.field f) c) :
    q.entity = p.entity ∧ InSet document p.type ss q.type f
      ∨ ∃ q₁ g own, Meets view document p ss q₁ (.field g) own
        ∧ view.isComposite g.type.innerName = .ok true ∧ q.entity = (q₁.below g).entity
        ∧ InSet document g.type.innerName g.selections q.type f := by
  generalize selected : Selection.field f = s at h
  induction h with
  | here mem slot included =>
      subst selected
      exact Or.inl ⟨rfl, .here mem⟩
  | field mem included isComposite _ ih =>
      rcases ih selected with ⟨at_, inSet⟩ | ⟨q₁, g, own, met, composite, at_, inSet⟩
      · exact Or.inr ⟨_, _, _, .here mem rfl included, isComposite, at_, inSet⟩
      · exact Or.inr ⟨q₁, g, own, .field mem included isComposite met, composite, at_, inSet⟩
  | inline mem read scope _ ih =>
      rcases ih selected with ⟨at_, inSet⟩ | ⟨q₁, g, own, met, parent⟩
      · rw [Place.entity_enter] at at_
        rw [Place.type_enter] at inSet
        exact Or.inl ⟨at_, .inline mem inSet⟩
      · exact Or.inr ⟨q₁, g, own, .inline mem read scope met, parent⟩
  | spread mem included defined _ ih =>
      rcases ih selected with ⟨at_, inSet⟩ | ⟨q₁, g, own, met, parent⟩
      · exact Or.inl ⟨at_, .spread mem defined inSet⟩
      · exact Or.inr ⟨q₁, g, own, .spread mem included defined met, parent⟩

/-- The entity of a field that is met is there. -/
theorem Meets.has {type : Name} {ss : List Selection} {s : EntityStorage}
    (inlines : s.Inlines view document type ss) {q : Place} {f : FieldSelection} {c : Inclusion}
    (h : Meets view document (.root type) ss q (.field f) c) : s.Has q.entity := by
  rcases h.parent with ⟨at_, -⟩ | ⟨q₁, g, own, met, isComposite, at_, -⟩
  · exact (inlines.has _).mpr (Or.inl at_)
  · exact (inlines.has _).mpr (Or.inr ⟨q₁, g, own, met, isComposite, at_⟩)

/-! ## The type selected on -/

/-- The type of the entity at a path, in a definition on a type. -/
def FieldPath.typeFrom (path : FieldPath) (root : Name) : Name :=
  path.last?.elim root fun c => c.type.innerName

/-- Equal scopes have equal types. -/
theorem ScopePath.types_congr {p q : ScopePath} (h : (p == q) = true) :
    p.scopes.map Scope.typeCondition = q.scopes.map Scope.typeCondition := by
  have same : (p.scopes == q.scopes) = true := h
  generalize p.scopes = ss at same
  generalize q.scopes = ts at same
  induction ss generalizing ts with
  | nil =>
      cases ts with
      | nil => rfl
      | cons t ts => cases same
  | cons s ss ih =>
      cases ts with
      | nil => cases same
      | cons t ts =>
          obtain ⟨first, rest⟩ := (Bool.and_eq_true _ _).mp same
          have condition : s.typeCondition = t.typeCondition :=
            eq_of_beq ((Bool.and_eq_true _ _).mp first).1
          rw [List.map_cons, List.map_cons, condition, ih ts rest]

theorem ScopePath.typeOn_eq (p : ScopePath) (type : Name) :
    p.typeOn type = (p.scopes.map Scope.typeCondition).getLast?.getD type := by
  rw [typeOn, last?, List.getLast?_map]
  cases p.scopes.getLast? <;> rfl

theorem ScopePath.typeOn_congr {p q : ScopePath} (h : (p == q) = true) (type : Name) :
    p.typeOn type = q.typeOn type := by
  rw [typeOn_eq, typeOn_eq, types_congr h]

namespace Place

/-- The type selected on follows from the entity and the scope. -/
def Typed (root : Name) (p : Place) : Prop :=
  p.type = p.scope.typeOn (p.entity.typeFrom root)

theorem typed_root (type : Name) : (root type).Typed type := rfl

theorem typed_below (p : Place) (f : FieldSelection) (root : Name) : (p.below f).Typed root := by
  simp [Typed, below, FieldPath.typeFrom, FieldPath.last?, ScopePath.typeOn, ScopePath.last?,
    ScopePath.root]

theorem typeOn_append (path : ScopePath) (scope : Scope) (type : Name) :
    (path.append scope).typeOn type = scope.typeCondition := by
  simp [ScopePath.append, ScopePath.typeOn, ScopePath.last?]

theorem Typed.enter {p : Place} {root : Name} (h : p.Typed root) (condition : Option Name)
    (conditions : Option Conjunction) (deferral : Deferral) :
    (p.enter condition conditions deferral).Typed root := by
  unfold Place.enter
  dsimp only
  split
  · exact h
  · unfold Typed
    rw [typeOn_append]

theorem Typed.follow {p : Place} {root : Name} (h : p.Typed root) (typeCondition : Name)
    (guard : Inclusion) : (p.follow typeCondition guard).Typed root := by
  unfold Place.follow Typed
  dsimp only
  split
  · rename_i same
    exact (eq_of_beq same).trans h
  · rw [typeOn_append]

end Place

theorem Meets.typed {p q : Place} {ss : List Selection} {s : Selection} {c : Inclusion} {root : Name}
    (h : Meets view document p ss q s c) (typed : p.Typed root) : q.Typed root := by
  induction h with
  | here => exact typed
  | field _ _ _ _ ih => exact ih (Place.typed_below _ _ _)
  | inline _ _ _ _ ih => exact ih (typed.enter _ _ _)
  | spread _ _ _ _ ih => exact ih (typed.follow _ _)

/-- In one scope of one entity all selections are made on one type. -/
theorem Meets.type_eq {type : Name} {ss : List Selection} {q q' : Place} {s s' : Selection}
    {c c' : Inclusion} (h : Meets view document (.root type) ss q s c)
    (h' : Meets view document (.root type) ss q' s' c') (entity : q.entity = q'.entity)
    (scope : (q.scope == q'.scope) = true) : q.type = q'.type := by
  calc q.type
      = q.scope.typeOn (q.entity.typeFrom type) := h.typed (Place.typed_root type)
    _ = q'.scope.typeOn (q'.entity.typeFrom type) := by
        rw [entity, ScopePath.typeOn_congr scope]
    _ = q'.type := (h'.typed (Place.typed_root type)).symm

/-! ## The field of a name -/

/-- The field that a name selects on a type has the name. -/
theorem Schema.name_of_fieldOf? {schema : Schema} {type name : Name} {field : FieldDefinition}
    (h : schema.fieldOf? type name = some field) : field.name = name := by
  unfold fieldOf? at h
  split at h
  · cases h
  · split at h
    · rename_i own
      cases h
      simpa using List.find?_some own
    · split at h
      · rename_i asked
        cases h
        simp only [Bool.and_eq_true, beq_iff_eq] at asked
        exact asked.1.symm
      · split at h
        · simpa using List.find?_some h
        · cases h

/-- In a document that was read against the schema, a field that is met is the one that its name
selects on the type it is met on. -/
theorem Meets.defined (resolved : document.Resolved view.schema) {p q : Place} {ss : List Selection}
    {f : FieldSelection} {c : Inclusion} (h : Meets view document p ss q (.field f) c)
    (read : ∃ ws, ss = Selection.resolveAll view.schema p.type ws) :
    view.schema.fieldOf? q.type f.name = some f.definition := by
  generalize selected : Selection.field f = s at h
  induction h with
  | here mem =>
      subst selected
      obtain ⟨ws, rfl⟩ := read
      obtain ⟨w, -, left⟩ := Selection.mem_resolveAll.mp mem
      obtain ⟨⟨name, found⟩, -⟩ := Selection.of_resolve_field left
      rwa [← Schema.name_of_fieldOf? found] at found
  | field mem _ _ _ ih =>
      obtain ⟨ws, rfl⟩ := read
      obtain ⟨w, -, left⟩ := Selection.mem_resolveAll.mp mem
      obtain ⟨-, ws', selections, -⟩ := Selection.of_resolve_field left
      exact ih ⟨ws', selections⟩ selected
  | inline mem _ _ _ ih =>
      obtain ⟨ws, rfl⟩ := read
      obtain ⟨w, -, left⟩ := Selection.mem_resolveAll.mp mem
      obtain ⟨ws', selections⟩ := Selection.of_resolve_inline left
      exact ih ⟨ws', by rw [Place.type_enter]; exact selections⟩ selected
  | spread _ _ defined _ ih => exact ih (resolved _ (Document.defines_of_fragment? defined)) selected

/-! ## Fields that meet -/

/-- No entity down to a path is reached through fields that are selected on exclusive types. -/
def Undivided (view : SchemaView) (met : Place → Selection → Inclusion → Prop) (path : FieldPath) :
    Prop :=
  ∀ q f c q' f' c', met q (.field f) c → met q' (.field f') c' →
    (q.below f).entity = (q'.below f').entity →
    (q.below f).entity.components <+: path.components → ¬ view.Exclusive q.type q'.type

/-- Above an entity that is undivided there is no divided one. -/
theorem Undivided.of_append {met : Place → Selection → Inclusion → Prop} {path : FieldPath}
    {c : PathComponent} (h : Undivided view met (path.append c)) : Undivided view met path :=
  fun _ _ _ _ _ _ met met' same above =>
    h _ _ _ _ _ _ met met' same (above.trans (List.prefix_append _ _))

/-- What holds of any two fields of one response key on one entity: it holds of those in the set of
the definition, and below two fields that select one entity if it holds of these.  The induction is on
the length of the entity's path. -/
theorem met_fields_induction {type : Name} {ss : List Selection}
    {P : FieldPath → Name → FieldSelection → Name → FieldSelection → Prop}
    (top : ∀ t f u g, InSet document type ss t f → InSet document type ss u g →
      f.responseKey = g.responseKey → P .root t f u g)
    (step : ∀ q f c q' f' c', Meets view document (.root type) ss q (.field f) c →
      Meets view document (.root type) ss q' (.field f') c' →
      (q.below f).entity = (q'.below f').entity → P q.entity q.type f q'.type f' →
      ∀ t g u g', InSet document f.type.innerName f.selections t g →
        InSet document f'.type.innerName f'.selections u g' → g.responseKey = g'.responseKey →
        P (q.below f).entity t g u g')
    {q q' : Place} {f f' : FieldSelection} {c c' : Inclusion}
    (h : Meets view document (.root type) ss q (.field f) c)
    (h' : Meets view document (.root type) ss q' (.field f') c') (entity : q.entity = q'.entity)
    (key : f.responseKey = f'.responseKey) : P q.entity q.type f q'.type f' := by
  induction size : q.entity.components.length generalizing q q' f f' c c' with
  | zero =>
      have root : q.entity = .root :=
        FieldPath.components_injective (List.eq_nil_of_length_eq_zero size)
      rcases h.parent with ⟨-, inSet⟩ | ⟨q₁, g, own, -, -, at_, -⟩
      · rcases h'.parent with ⟨-, inSet'⟩ | ⟨q₁, g, own, -, -, at_, -⟩
        · exact root ▸ top _ _ _ _ inSet inSet' key
        · exact absurd (at_.symm.trans (entity.symm.trans root)) FieldPath.root_append_ne
      · exact absurd (at_.symm.trans root) FieldPath.root_append_ne
  | succ n ih =>
      have below : q.entity ≠ .root := by
        intro root
        rw [root] at size
        cases size
      rcases h.parent with ⟨at_, -⟩ | ⟨q₁, g, own, met, -, at_, inSet⟩
      · exact absurd at_ below
      · rcases h'.parent with ⟨at', -⟩ | ⟨q₁', g', own', met', -, at', inSet'⟩
        · exact absurd (entity.trans at') below
        · have one : (q₁.below g).entity = (q₁'.below g').entity := by rw [← at_, entity, at']
          obtain ⟨above, component⟩ := FieldPath.append_inj one
          have shorter : q₁.entity.components.length = n := by
            rw [at_, Place.below, FieldPath.components_append, List.length_append] at size
            exact Nat.succ.inj size
          have before := ih met met' above (congrArg PathComponent.name component) shorter
          rw [at_]
          exact step _ _ _ _ _ _ met met' one before _ _ _ _ inSet inSet' key

/-- Fields that meet under one key of a mergeable definition have one shape, with all that is below
them. -/
theorem Mergeable.not_shapeConflict {type : Name} {ss : List Selection}
    (mergeable : Mergeable view document type ss) {q q' : Place} {f f' : FieldSelection}
    {c c' : Inclusion} (h : Meets view document (.root type) ss q (.field f) c)
    (h' : Meets view document (.root type) ss q' (.field f') c') (entity : q.entity = q'.entity)
    (key : f.responseKey = f'.responseKey) : ¬ ShapeConflict view document f f' := by
  refine met_fields_induction (P := fun _ _ f _ g => ¬ ShapeConflict view document f g) ?_ ?_ h h'
    entity key
  · exact fun t f u g inSet inSet' key conflict =>
      mergeable _ _ _ _ inSet inSet' key (.shape conflict)
  · exact fun _ _ _ _ _ _ _ _ _ before _ _ _ _ inSet inSet' key conflict =>
      before (.deeper inSet inSet' key conflict)

/-- On an entity that is undivided, fields that meet under one key do not conflict. -/
theorem Mergeable.not_conflict {type : Name} {ss : List Selection}
    (mergeable : Mergeable view document type ss) {q q' : Place} {f f' : FieldSelection}
    {c c' : Inclusion} (h : Meets view document (.root type) ss q (.field f) c)
    (h' : Meets view document (.root type) ss q' (.field f') c') (entity : q.entity = q'.entity)
    (key : f.responseKey = f'.responseKey)
    (undivided : Undivided view (Meets view document (.root type) ss) q.entity) :
    ¬ Conflict view document q.type f q'.type f' := by
  refine met_fields_induction (P := fun path t f u g =>
    Undivided view (Meets view document (.root type) ss) path → ¬ Conflict view document t f u g)
    ?_ ?_ h h' entity key undivided
  · exact fun t f u g inSet inSet' key _ => mergeable _ _ _ _ inSet inSet' key
  · intro q f c q' f' c' met met' one before t g u g' inSet inSet' key undivided
    have overlap := undivided _ _ _ _ _ _ met met' one (List.prefix_refl _)
    exact Conflict.not_below (before undivided.of_append) overlap inSet inSet' key

/-! ## What a tree has under a key -/

/-- In a mergeable definition the tree of an entity has a field under the key of each field that is
met there and can be included.  It is a field that is met there, and it has the shape of every other;
where no entity on the way is reached through fields of exclusive types, it has the name and the type
of every other as well. -/
theorem shadowed_fields_have_one_shape (document : Document) (s : Session)
    (reachable : s.Reachable document) (resolved : document.Resolved s.view.schema)
    (d : ExecutableDefinition) (defined : document.Defines d)
    (mergeable : Mergeable s.view document d.rootType d.selections) (b : BuiltSelections)
    (builds : s.Builds d b) (q : Place) (f : FieldSelection) (c : Inclusion)
    (h : Meets s.view document (.root d.rootType) d.selections q (.field f) c) (σ : Assignment)
    (included : c.holds σ = true) (guarded : ∀ guard ∈ q.guards, guard.holds σ = true) :
    let met := Meets s.view document (.root d.rootType) d.selections
    ∃ e ∈ b.entities.entities, e.location.path = q.entity
      ∧ ∃ g, e.tree.field? q.scope f.responseKey = some g
        ∧ MeetsField met q.entity q.scope f.responseKey g.name g.type
        ∧ s.view.SameShape g.type f.type
        ∧ (Undivided s.view met q.entity → g.name = f.name ∧ g.type = f.type) := by
  intro met
  have inlines := builds.inlines reachable
  obtain ⟨e, mem, at_⟩ := h.has inlines
  obtain ⟨g, found, -⟩ : ∃ g, e.tree.field? q.scope f.responseKey = some g
      ∧ g.inclusion.holds σ = true :=
    (inlines.field?_iff mem).mpr ⟨q, .field f, c, h, rfl, at_.symm, BEq.rfl, included, guarded⟩
  have recorded : b.entities.Records q.entity q.scope f.responseKey g.name g.type :=
    ⟨e, mem, at_, SelectionTree.records_of_field? found⟩
  obtain ⟨q', f', c', met', entity, same, key, named, typed⟩ :=
    builds.sourced reachable _ _ _ _ _ recorded
  refine ⟨e, mem, at_, g, found, ⟨q', f', c', met', entity, same, key, named, typed⟩, ?_, ?_⟩
  · by_contra differ
    exact mergeable.not_shapeConflict met' h entity key (.type (typed ▸ differ))
  · intro undivided
    have types := Meets.type_eq met' h entity same
    have name : f'.name = f.name := by
      by_contra differ
      refine mergeable.not_conflict met' h entity key (entity ▸ undivided) (.name ?_ differ)
      exact types ▸ s.view.not_exclusive_self _
    -- One name on one type selects one field.
    have field := met'.defined resolved (resolved d defined)
    rw [name, types, h.defined resolved (resolved d defined)] at field
    refine ⟨named.symm.trans name, typed.symm.trans ?_⟩
    exact congrArg FieldDefinition.type (Option.some.inj field).symm

-- Of `query { node { ... on A { child { x: name } } ... on B { child { x: nick } } } }` the child has
-- the field `x` with the name only, though no object is both.
example :
    let labelled : Name → FieldSelection := fun name =>
      ⟨some "x", ⟨none, name, [], .named "String", []⟩, [], [], []⟩
    let childOf : Name → Selection := fun name =>
      .field ⟨none, ⟨none, "child", [], .named "Child", []⟩, [], [], [.field (labelled name)]⟩
    let node : FieldSelection := ⟨none, ⟨none, "node", [], .named "Node", []⟩, [], [],
      [.inlineFragment (some "A") [] [childOf "name"], .inlineFragment (some "B") [] [childOf "nick"]]⟩
    let child : FieldDefinition := ⟨none, "child", [], .named "Child", []⟩
    let schema : Schema :=
      ⟨[⟨"Query", .object, [node.definition]⟩, ⟨"Node", .interface, []⟩, ⟨"A", .object, [child]⟩,
        ⟨"B", .object, [child]⟩, ⟨"Child", .object, [(labelled "name").definition,
          (labelled "nick").definition]⟩, ⟨"String", .scalar, []⟩], [(.query, "Query")], none⟩
    let o := Heroes.query [.field node]
    ((Session.start schema ⟨[o], []⟩ 0).toOption.any fun s =>
      (s.buildOperation o).1.toOption.any fun b => (b.built.entities.get? ⟨2⟩).any fun e =>
        e.tree.scopes.map (fun scope => scope.2.fields.map MergedField.name) == [["name"]]) = true := by
  decide +kernel

/-- The name of a hero who is selected twice is a field of the hero. -/
theorem heros_name_is_recorded :
    let hero := Heroes.heroField "hero" [] [.field Heroes.nameField]
    let o := Heroes.query [.field hero, .field hero]
    let document : Document := ⟨[o], []⟩
    ∃ (s : Session) (b : BuiltSelections), s.Reachable document
      ∧ s.Builds (.operation o.definition) b
      ∧ ∃ e ∈ b.entities.entities, e.location.path = ⟨[⟨"hero", .named "Hero"⟩]⟩
        ∧ ∃ g, e.tree.field? .root "name" = some g ∧ s.view.SameShape g.type (.named "String") := by
  intro hero o document
  obtain ⟨s, b, reachable, schema, builds, -⟩ := Session.exists_builds document Heroes.schema o
    (fun _ => true) (by decide +kernel)
  have isComposite := Heroes.isComposite_hero schema
  have defined : document.Defines (.operation o.definition) := ⟨none, List.mem_singleton_self _⟩
  have resolved : document.Resolved s.view.schema := by
    let written : Written.Selection := .field none "hero" [] [] [.field none "name" [] [] []]
    rw [schema]
    rintro (o' | f) ⟨text, mem⟩
    · obtain rfl : o' = o.definition := congrArg Sourced.definition (List.mem_singleton.mp mem)
      exact ⟨[written, written], by decide +kernel⟩
    · cases mem
  -- The query selects the hero only, and the hero the name only, which selects nothing.
  have top : ∀ t ∈ o.definition.selections, t = .field hero := by simp [o, Heroes.query]
  have inside : ∀ t ∈ hero.selections, t = .field Heroes.nameField := by
    simp [hero, Heroes.heroField]
  have nothing : ∀ t u f, ¬ InSet document t Heroes.nameField.selections u f := by
    intro t u f inSet
    cases inSet <;> simp_all [Heroes.nameField]
  have shapes : ¬ ShapeConflict s.view document Heroes.nameField Heroes.nameField := by
    intro conflict
    cases conflict with
    | type differ => exact differ (Or.inl rfl)
    | deeper left => exact nothing _ _ _ left
  have mergeable : Mergeable s.view document "Query" o.definition.selections := by
    intro t f u g left right key conflict
    obtain ⟨rfl, rfl⟩ := left.eq_of_only top
    obtain ⟨rfl, rfl⟩ := right.eq_of_only top
    cases conflict with
    | shape conflict =>
        cases conflict with
        | type differ => exact differ (Or.inl rfl)
        | deeper left right key conflict =>
            obtain ⟨rfl, rfl⟩ := left.eq_of_only inside
            obtain ⟨rfl, rfl⟩ := right.eq_of_only inside
            exact shapes conflict
    | name overlap differ => exact differ rfl
    | deeper overlap left right key conflict =>
        obtain ⟨rfl, rfl⟩ := left.eq_of_only inside
        obtain ⟨rfl, rfl⟩ := right.eq_of_only inside
        cases conflict with
        | shape conflict => exact shapes conflict
        | name overlap differ => exact differ rfl
        | deeper overlap left => exact nothing _ _ _ left
  have met : Meets s.view document (.root "Query") o.definition.selections
      ((Place.root "Query").below hero) (.field Heroes.nameField) .always :=
    .field List.mem_cons_self rfl isComposite (.here (List.mem_singleton_self _) rfl rfl)
  obtain ⟨e, mem, at_, g, found, -, shape, -⟩ := shadowed_fields_have_one_shape document s reachable
    resolved _ defined mergeable b builds _ _ _ met (fun _ => true) rfl (by simp [Place.below])
  exact ⟨s, b, reachable, builds, e, mem, at_, g, found, shape⟩

end SelectionGraph
