import SelectionGraph.Proofs.Direct.Spreads
import SelectionGraph.Proofs.FieldCollector
import SelectionGraph.Proofs.Session.Sharing

/-!
# Collected — the fields that a session has collected, and the trees that hold them

A walk collects every field before it goes on, under the type that the field is selected on.  Where
this type and the field's name determine the field's type, what is collected is right at any time, also
after builds that failed; and it covers the trees of whatever was built, in which a field stands in a
scope of the type that it was selected on, through however many fragments it came there.

* `Document.Typed`           — the type of a field follows from where it is selected and its name;
* `Progress.Accrues`         — collecting keeps what was collected right and complete;
* `Build.keeps_fragmentNamed` — what the building of fragments keeps, by induction on those in progress;
* `Walk.covers_all`          — a walk that succeeds has collected whatever is met;
* `BuiltSelections.CollectedIn` — the trees of a definition are typed and covered;
* `trees_are_typed_and_collected` — so they are after any calls to a session.
-/

namespace SelectionGraph

variable {view : SchemaView} {document : Document} {typeOf : Name → Name → TypeRef}

/-! ## Typed documents -/

/-- Fields have the types that follow from the types they are selected on and from their names. -/
def ExecutableDefinition.Typed (typeOf : Name → Name → TypeRef) (d : ExecutableDefinition) : Prop :=
  ∀ t f, Selected d.rootType d.selections t f → f.type = typeOf t f.name

def Document.Typed (typeOf : Name → Name → TypeRef) (document : Document) : Prop :=
  ∀ d, document.Defines d → d.Typed typeOf

/-- A field that is met has its type where it is met. -/
theorem Meets.type_of (typed : document.Typed typeOf) {p q : Place} {ss : List Selection}
    {f : FieldSelection} {c : Inclusion} (h : Meets view document p ss q (.field f) c)
    (here : ∀ t g, Selected p.type ss t g → g.type = typeOf t g.name) :
    f.type = typeOf q.type f.name := by
  generalize selected : Selection.field f = s at h
  induction h with
  | here mem =>
      subst selected
      exact here _ _ (.here mem)
  | field mem _ _ _ ih => exact ih (fun t g within => here t g (.field mem within)) selected
  | inline mem _ _ _ ih =>
      refine ih (fun t g within => here t g (.inline mem ?_)) selected
      rwa [Place.type_enter] at within
  | spread _ _ defined _ ih => exact ih (typed _ (Document.defines_of_fragment? defined)) selected

/-- In a document that was read against a schema, fields have the types that the schema gives them. -/
theorem Document.Resolved.typed {schema : Schema} (resolved : document.Resolved schema)
    {typeOf : Name → Name → TypeRef} (given : ∀ type name field,
      schema.fieldOf? type name = some field → typeOf type name = field.type) :
    document.Typed typeOf := by
  intro d defined t f within
  obtain ⟨w, left⟩ := resolved.exists_written defined within
  obtain ⟨⟨name, found⟩, -⟩ := Selection.of_resolve_field left
  rw [FieldSelection.name, Schema.name_of_fieldOf? found]
  exact (given _ _ _ found).symm

/-! ## What is collected -/

/-- All fields that are met in selections on a type are collected. -/
def FieldCollector.Covers (c : FieldCollector) (view : SchemaView) (document : Document)
    (type : Name) (ss : List Selection) : Prop :=
  ∀ q f own, Meets view document (.root type) ss q (.field f) own → c.Has q.type f.name

/-- All fields that are met in the fragments that are built are collected. -/
def Progress.Covered (view : SchemaView) (document : Document) (p : Progress) : Prop :=
  ∀ g ∈ p.fragments, (∃ d, document.fragment? g.name = some d ∧ d.definition = g.definition)
    ∧ p.collector.Covers view document g.definition.typeCondition g.definition.selections

/-- What was collected stays, stays right, and stays complete. -/
structure Progress.Accrues (view : SchemaView) (document : Document)
    (typeOf : Name → Name → TypeRef) (p p' : Progress) : Prop where
  grows : ∀ t n, p.collector.Has t n → p'.collector.Has t n
  sound : p.collector.Sound typeOf → p'.collector.Sound typeOf
  covered : p.Covered view document → p'.Covered view document

theorem Progress.accrues_order : Progress.Order (Accrues view document typeOf) where
  refl _ := ⟨fun _ _ => id, id, id⟩
  trans h₁ h₂ := ⟨fun t n => h₂.grows t n ∘ h₁.grows t n, h₂.sound ∘ h₁.sound,
    h₂.covered ∘ h₁.covered⟩

theorem FieldCollector.Covers.mono {c c' : FieldCollector} {type : Name} {ss : List Selection}
    (h : c.Covers view document type ss) (more : ∀ t n, c.Has t n → c'.Has t n) :
    c'.Covers view document type ss :=
  fun q f own met => more _ _ (h q f own met)

namespace Build

theorem accrues_collect {t n : Name} {type : TypeRef} (typed : type = typeOf t n) :
    (collect t n type).Keeps (Progress.Accrues view document typeOf) := by
  subst typed
  intro p
  have grows : ∀ u m, p.collector.Has u m → (p.collector.collect t n (typeOf t n)).Has u m :=
    fun u m has => FieldCollector.has_collect.mpr (Or.inl has)
  refine ⟨grows, fun sound => sound.collect t n, fun covered g mem => ?_⟩
  obtain ⟨defined, covers⟩ := covered g mem
  exact ⟨defined, covers.mono grows⟩

theorem of_collect {t n : Name} {type : TypeRef} {p p' : Progress} {u : Unit}
    (h : (collect t n type).Gives p u p') :
    p' = { p with collector := p.collector.collect t n type } :=
  (congrArg Prod.snd h).symm

/-- What the building of fragments keeps: what their walks keep, and the finishing of a fragment.  The
induction is on the fragments that are not in progress. -/
theorem keeps_fragmentNamed {R : Progress → Progress → Prop} (order : Progress.Order R)
    (fresh : ∀ p, R p { p with nextDefinition := p.nextDefinition + 1 })
    (collects : ∀ f, document.Defines (.fragment f) → ∀ t g,
      Selected f.typeCondition f.selections t g → (Build.collect t g.name g.type).Keeps R)
    (finish : ∀ inProgress name f p b p', document.fragment? name = some f →
      (∀ spread, (fragmentNamed view document inProgress spread).Keeps R) →
      (selections view (fragmentNamed view document inProgress) (.fragment f.definition) name
        f.definition.selections).Gives p b p' → R p p' →
      R p { p' with fragments :=
        p'.fragments ++ [⟨f.definition, b, sourceOf FragmentDefinition.text f⟩] })
    (inProgress : List Name) (name : Name) :
    (fragmentNamed view document inProgress name).Keeps R := by
  intro p
  rw [result_fragmentNamed]
  cases NamedFragment.find? p.fragments name with
  | some built => exact order.refl p
  | none =>
      dsimp only
      by_cases active : name ∈ inProgress
      · rw [if_pos active]
        exact order.refl p
      · rw [if_neg active]
        cases defined : document.fragment? name with
        | none => exact order.refl p
        | some f =>
            have nested := fun spread =>
              keeps_fragmentNamed order fresh collects finish (inProgress ++ [name]) spread
            have walk := keeps_selections order nested fresh view (.fragment f.definition) name
              f.definition.selections
              (collects f.definition (Document.defines_of_fragment? defined)) p
            dsimp only
            rcases run : (selections view (fragmentNamed view document (inProgress ++ [name]))
              (.fragment f.definition) name f.definition.selections).result p with ⟨e | b, p'⟩
            · rw [run] at walk
              exact walk
            · rw [run] at walk
              exact finish _ name f p b p' defined nested run walk
termination_by waiting document inProgress
decreasing_by exact waiting_lt active defined

end Build

/-! ## Walks -/

namespace Walk

variable {fragmentNamed : Name → Build NamedFragment}

/-- A look-up of fragments collects what it should, and finds fragments among those that are built. -/
structure Collecting (view : SchemaView) (document : Document) (typeOf : Name → Name → TypeRef)
    (fragmentNamed : Name → Build NamedFragment) : Prop where
  accrues : ∀ name, (fragmentNamed name).Keeps (Progress.Accrues view document typeOf)
  finds : ∀ name p f p', (fragmentNamed name).Gives p f p' →
    NamedFragment.find? p'.fragments name = some f

theorem accrues_all (lookUp : Collecting view document typeOf fragmentNamed) {info : TypeInfo}
    {direct : DirectSelections} {ss : List Selection}
    (typed : ∀ t f, Selected info.parentType ss t f → f.type = typeOf t f.name) :
    (all view fragmentNamed info direct ss).Keeps (Progress.Accrues view document typeOf) :=
  keeps_all Progress.accrues_order lookUp.accrues info direct ss fun t f within =>
    Build.accrues_collect (typed t f within)

/-- A walk of selections that succeeds has collected whatever is met in them, if what was built before
is covered. -/
def Covers (view : SchemaView) (document : Document) (typeOf : Name → Name → TypeRef)
    (info : TypeInfo) (ss : List Selection) (w : Walk DirectSelections) : Prop :=
  (∀ t f, Selected info.parentType ss t f → f.type = typeOf t f.name) →
    ∀ draft p direct draft' p', w.Gives draft p direct draft' p' → p.Covered view document →
      ∀ site : Place, site.type = info.parentType → ∀ q g own,
        Meets view document site ss q (.field g) own → p'.collector.Has q.type g.name

section Covers

variable (lookUp : Collecting view document typeOf fragmentNamed) (info : TypeInfo)
  (direct : DirectSelections)

include lookUp

theorem covers_field (label : Option Name) (definition : FieldDefinition) (arguments : List Argument)
    (directives : List Directive) {selections : List Selection}
    (inside : ∀ info direct, Covers view document typeOf info selections
      (all view fragmentNamed info direct selections)) :
    Covers view document typeOf info [.field ⟨label, definition, arguments, directives, selections⟩]
      (one view fragmentNamed info direct
        (.field ⟨label, definition, arguments, directives, selections⟩)) := by
  intro typed draft p direct' draft' p' h covered site type q g own met
  have here := List.mem_singleton_self
    (Selection.field ⟨label, definition, arguments, directives, selections⟩)
  rw [one] at h
  simp only [gives_bind, gives_ofExcept] at h
  obtain ⟨_ | inclusion, d₀, p₀, ⟨included, rfl, rfl⟩, h⟩ := h
  · exact absurd met (not_meets_skipped included)
  simp only [gives_bind, gives_ofBuild, gives_modifyTree, gives_ofExcept] at h
  obtain ⟨_, d₀, p₁, ⟨collected, rfl⟩, _, d₁, p₂, ⟨-, rfl, rfl⟩, isComposite, d₂, p₃,
    ⟨composite, rfl, rfl⟩, h⟩ := h
  obtain rfl := Build.of_collect collected
  -- The field itself is collected first, and that stays.
  have accrued : Progress.Accrues view document typeOf p _ :=
    Build.accrues_collect (typed _ _ (.here here)) p
  have own_ : (p.collector.collect info.parentType definition.name definition.type).Has
      info.parentType definition.name := FieldCollector.has_collect.mpr (Or.inr ⟨rfl, rfl⟩)
  rw [meets_field included] at met
  cases isComposite with
  | false =>
      obtain ⟨-, rfl, rfl⟩ := gives_ofExcept.mp h
      rcases met with ⟨rfl, same, -⟩ | ⟨isComposite, -⟩
      · cases same
        exact type ▸ own_
      · cases composite.symm.trans isComposite
  | true =>
      simp only [if_true, gives_bind, gives_entityForField, gives_freshField, gives_ofExcept] at h
      obtain ⟨entity, d₂, p₃, ⟨entities, selected, rfl, rfl⟩, below, d₃, p₄, inner, id, d₄, p₅,
        ⟨rfl, rfl, rfl⟩, added, rfl, rfl⟩ := h
      let info' : TypeInfo :=
        ⟨entity, definition.type.innerName, .root, view.isRootFieldType definition.type.innerName⟩
      have typedInside : ∀ t f, Selected info'.parentType selections t f →
          f.type = typeOf t f.name := fun t f within => typed t f (.field here within)
      rcases met with ⟨rfl, same, -⟩ | ⟨-, met⟩
      · cases same
        exact type ▸ (Gives.kept (accrues_all lookUp typedInside) inner).grows _ _ own_
      · exact inside info' _ typedInside _ _ _ _ _ inner (accrued.covered covered) _ rfl q g own met

omit lookUp in
theorem covers_inline (condition : Option Name) (directives : List Directive)
    {selections : List Selection} (inside : ∀ info direct, Covers view document typeOf info selections
      (all view fragmentNamed info direct selections)) :
    Covers view document typeOf info [.inlineFragment condition directives selections]
      (one view fragmentNamed info direct (.inlineFragment condition directives selections)) := by
  intro typed draft p direct' draft' p' h covered site type q g own met
  have typedInside : ∀ (inner : TypeInfo), inner.parentType = condition.getD info.parentType →
      ∀ t f, Selected inner.parentType selections t f → f.type = typeOf t f.name :=
    fun inner type t f within =>
      typed t f (.inline (List.mem_singleton_self _) (type ▸ within))
  rw [one] at h
  simp only [gives_bind, gives_ofExcept] at h
  obtain ⟨verdict, d₀, p₀, ⟨read, rfl, rfl⟩, h⟩ := h
  cases scope : verdict.scope? with
  | none =>
      refine absurd met (not_meets_skipped ?_)
      rw [Selection.directives, Inclusion.ofDirectives_of_verdict read, scope]
      rfl
  | some conditions =>
      rw [meets_inline read scope] at met
      have entered := (Place.type_enter site condition conditions (.said directives)).trans
        (congrArg condition.getD type)
      rw [scope] at h
      simp only [gives_bind, gives_ofExcept, noteDeferred, gives_modify] at h
      obtain ⟨deferral, d₀, p₀, ⟨deferred, rfl, rfl⟩, _, d₁, p₁, ⟨rfl, rfl⟩, h⟩ := h
      split at h
      · rename_i flattens
        simp only [Bool.and_eq_true, beq_iff_eq] at flattens
        exact inside _ _ (typedInside info flattens.1.1.symm) _ _ _ _ _ h covered _
          (entered.trans flattens.1.1) q g own met
      · simp only [gives_bind, gives_ofExcept] at h
        obtain ⟨below, d₂, p₂, within, added, rfl, rfl⟩ := h
        have inner := info.parentType_enter ⟨condition.getD info.parentType, conditions⟩
          (view.isRootFieldType (condition.getD info.parentType))
        exact inside _ _ (typedInside _ inner) _ _ _ _ _ within covered _
          (entered.trans inner.symm) q g own met

theorem covers_spread (name : Name) (directives : List Directive) :
    Covers view document typeOf info [.fragmentSpread name directives]
      (spread view fragmentNamed info direct name directives) := by
  intro typed draft p direct' draft' p' h covered site type q g own met
  rw [spread] at h
  simp only [gives_bind, gives_ofExcept] at h
  obtain ⟨_ | inclusion, d₀, p₀, ⟨included, rfl, rfl⟩, h⟩ := h
  · exact absurd met (not_meets_skipped included)
  simp only [gives_bind, gives_ofBuild, gives_ofExcept, recordReference, noteDeferred,
    gives_modify, gives_mergeFragmentEntities, gives_modifyTree] at h
  obtain ⟨deferral, d₀, p₀, ⟨deferred, rfl, rfl⟩, fragment, d₁, p₁, ⟨named, rfl⟩, _, d₂, p₂,
    ⟨rfl, rfl⟩, _, d₃, p₃, ⟨rfl, rfl⟩, _, d₄, p₄, ⟨entities, merged, rfl, rfl⟩, _, d₅, p₅,
    ⟨-, rfl, rfl⟩, added, rfl, rfl⟩ := h
  -- The fragment was covered when it was built, wherever its selections are met again.
  have kept := lookUp.accrues name p
  rw [show _ = _ from named] at kept
  obtain ⟨mem, rfl⟩ := NamedFragment.mem_of_find? (lookUp.finds _ _ _ _ named)
  obtain ⟨⟨d, defined, same⟩, covers⟩ := kept.covered covered fragment mem
  rw [meets_spread included defined] at met
  rcases met with ⟨-, ⟨⟩, -⟩ | inside
  rw [same] at inside
  obtain ⟨q', met, rfl⟩ := (meets_site rfl).mp inside
  exact covers q' g own met

/-- One selection is covered, and then the others. -/
theorem covers_cons {s : Selection} {ss : List Selection}
    (first : Covers view document typeOf info [s] (one view fragmentNamed info direct s))
    (rest : ∀ direct, Covers view document typeOf info ss (all view fragmentNamed info direct ss)) :
    Covers view document typeOf info (s :: ss) (all view fragmentNamed info direct (s :: ss)) := by
  intro typed draft p direct' draft' p' h covered site type q g own met
  rw [all, gives_bind] at h
  obtain ⟨direct₁, draft₁, p₁, walked, later⟩ := h
  have typedFirst : ∀ t f, Selected info.parentType [s] t f → f.type = typeOf t f.name :=
    fun t f within => typed t f (within.mono (by simp))
  have typedRest : ∀ t f, Selected info.parentType ss t f → f.type = typeOf t f.name :=
    fun t f within => typed t f (within.mono fun _ => List.mem_cons_of_mem _)
  have kept : Progress.Accrues view document typeOf p p₁ :=
    Gives.kept (keeps_one Progress.accrues_order lookUp.accrues info direct s fun t f within =>
      Build.accrues_collect (typedFirst t f within)) walked
  rcases (meets_cons s ss).mp met with here | there
  · refine (Gives.kept (accrues_all lookUp typedRest) later).grows _ _ ?_
    exact first typedFirst _ _ _ _ _ walked covered site type q g own here
  · exact rest _ typedRest _ _ _ _ _ later (kept.covered covered) site type q g own there

end Covers

mutual

theorem covers_one (lookUp : Collecting view document typeOf fragmentNamed) (info : TypeInfo)
    (direct : DirectSelections) : ∀ s : Selection,
      Covers view document typeOf info [s] (one view fragmentNamed info direct s)
  | .field ⟨label, definition, arguments, directives, selections⟩ =>
      covers_field lookUp info direct label definition arguments directives
        fun info direct => covers_all lookUp info direct selections
  | .inlineFragment condition directives selections =>
      covers_inline info direct condition directives
        fun info direct => covers_all lookUp info direct selections
  | .fragmentSpread name directives => by
      rw [one]
      exact covers_spread lookUp info direct name directives

/-- A walk that succeeds has collected whatever is met, also in the fragments that are spread. -/
theorem covers_all (lookUp : Collecting view document typeOf fragmentNamed) (info : TypeInfo)
    (direct : DirectSelections) : ∀ ss : List Selection,
      Covers view document typeOf info ss (all view fragmentNamed info direct ss)
  | [] => fun _ _ _ _ _ _ _ _ _ _ _ _ _ met => absurd met not_meets_nil
  | s :: ss =>
      covers_cons lookUp info direct (covers_one lookUp info direct s)
        fun direct => covers_all lookUp info direct ss

end

end Walk

/-! ## Definitions -/

namespace Build

variable {fragmentNamed : Name → Build NamedFragment}

theorem covers_selections (lookUp : Walk.Collecting view document typeOf fragmentNamed)
    {definition : ExecutableDefinition} (typed : definition.Typed typeOf) {rootName : Name}
    {p p' : Progress} {b : BuiltSelections} (covered : p.Covered view document)
    (h : (selections view fragmentNamed definition rootName definition.selections).Gives p b p') :
    p'.collector.Covers view document definition.rootType definition.selections := by
  unfold Gives at h
  rw [result_selections] at h
  let source : SourceDefinition := ⟨⟨p.nextDefinition⟩, definition⟩
  have type : (source.info view).parentType = definition.rootType := source.rootType_eq
  split at h
  · rename_i direct draft q run
    cases h
    exact Walk.covers_all lookUp (source.info view) .empty _ (type ▸ typed) _ _ _ _ _ run covered _
      type.symm
  · cases h

theorem collecting_fragmentNamed (view : SchemaView) (typed : document.Typed typeOf)
    (inProgress : List Name) :
    Walk.Collecting view document typeOf (Build.fragmentNamed view document inProgress) where
  finds name := (fragmentNamed_spec view document inProgress name).2
  accrues := by
    refine keeps_fragmentNamed Progress.accrues_order (fun _ => ⟨fun _ _ => id, id, id⟩) ?_ ?_
      inProgress
    · exact fun f defines t g within => accrues_collect (typed _ defines t g within)
    · intro inProgress name f p b p' defined nested run walk
      have lookUp : Walk.Collecting view document typeOf (Build.fragmentNamed view document inProgress) :=
        ⟨nested, fun spread => (fragmentNamed_spec view document inProgress spread).2⟩
      refine ⟨walk.grows, walk.sound, fun covered => ?_⟩
      simp only [Progress.Covered, List.forall_mem_append, List.forall_mem_singleton]
      refine ⟨walk.covered covered, ⟨f, ?_, rfl⟩, ?_⟩
      · rwa [NamedFragment.name, Document.name_of_fragment? defined]
      · exact covers_selections lookUp (typed _ (Document.defines_of_fragment? defined)) covered run

theorem accrues_operation (view : SchemaView) (typed : document.Typed typeOf)
    {o : Sourced OperationDefinition}
    (own : (ExecutableDefinition.operation o.definition).Typed typeOf) :
    (operation view document o).Keeps (Progress.Accrues view document typeOf) :=
  .bind Progress.accrues_order
    (keeps_selections Progress.accrues_order (collecting_fragmentNamed view typed []).accrues
      (fun _ => ⟨fun _ _ => id, id, id⟩) view _ _ _ fun t f within =>
        accrues_collect (own t f within))
    fun _ => keeps_pure Progress.accrues_order _

end Build

/-- The fields of all trees have their types in the scopes that they stand in, and are collected. -/
def BuiltSelections.CollectedIn (typeOf : Name → Name → TypeRef) (c : FieldCollector)
    (b : BuiltSelections) : Prop :=
  ∀ e ∈ b.entities.entities, ∀ x ∈ e.tree.scopes, ∀ m ∈ x.2.fields,
    m.type = typeOf (e.tree.scopeType x.1) m.name ∧ c.Has (e.tree.scopeType x.1) m.name

theorem BuiltSelections.CollectedIn.mono {b : BuiltSelections} {c c' : FieldCollector}
    (h : b.CollectedIn typeOf c) (more : ∀ t n, c.Has t n → c'.Has t n) : b.CollectedIn typeOf c' :=
  fun e memE x memX m memM => (h e memE x memX m memM).imp_right (more _ _)

/-- A tree has fields that are met, and where they are met the type selected on is that of the scope
that the tree has them in. -/
theorem WalkedFrom.collectedIn {built : List NamedFragment} (library : Library view document built)
    (typed : document.Typed typeOf) {id : DefinitionId} {d : ExecutableDefinition} {rootName : Name}
    {b : BuiltSelections} (own : d.Typed typeOf) (h : WalkedFrom view built ⟨id, d⟩ rootName b)
    {c : FieldCollector} (covers : c.Covers view document d.rootType d.selections) :
    b.CollectedIn typeOf c := by
  intro e memE x memX m memM
  have recorded : b.entities.Records e.location.path x.1 m.responseKey m.name m.type :=
    ⟨e, memE, rfl, x, memX, BEq.rfl, m, memM, rfl, rfl, rfl⟩
  obtain ⟨q, f, included, met, at_, same, -, named, type⟩ :=
    h.sourced library.inlined library.sourced _ _ _ _ _ recorded
  have scopeType : e.tree.scopeType x.1 = q.type := by
    have wf := (h.inlines library.inlined).wellFormed
    rw [SelectionTree.scopeType, wf.rootType_eq memE, h.source_entities library,
      SourceDefinition.rootType_eq, ← at_, ← ScopePath.typeOn_congr same]
    exact (Meets.typed met (Place.typed_root _)).symm
  rw [scopeType, ← named, ← type]
  exact ⟨met.type_of typed own, covers q f included met⟩

/-! ## Sessions -/

/-- The selections that a call brings along have their types as those of the document do. -/
def Call.Typed (typeOf : Name → Name → TypeRef) : Call → Prop
  | .operation o => (ExecutableDefinition.operation o.definition).Typed typeOf
  | _ => True

/-- A session has collected, rightly, whatever is met in its fragments. -/
structure Progress.Collects (view : SchemaView) (document : Document)
    (typeOf : Name → Name → TypeRef) (p : Progress) : Prop where
  library : Library view document p.fragments
  sound : p.collector.Sound typeOf
  covered : p.Covered view document

theorem Progress.Collects.next {p p' : Progress} (h : p.Collects view document typeOf)
    (advances : Build.Advances view document [] p p') (accrues : p.Accrues view document typeOf p') :
    p'.Collects view document typeOf :=
  ⟨advances.2.1 h.library, accrues.sound h.sound, accrues.covered h.covered⟩

namespace Build

/-- An operation that is built is typed and collected. -/
theorem collects_operation (typed : document.Typed typeOf) {o : Sourced OperationDefinition}
    (own : (ExecutableDefinition.operation o.definition).Typed typeOf) {p p' : Progress}
    {b : Operation} (h : p.Collects view document typeOf)
    (gives : (operation view document o).Gives p b p') :
    p'.Collects view document typeOf ∧ b.built.CollectedIn typeOf p'.collector := by
  have advances := keeps_operation view document o p
  have accrues := accrues_operation view typed own p
  rw [show _ = _ from gives] at advances accrues
  have after := h.next advances accrues
  obtain ⟨-, walked⟩ := walkedFrom_operation gives
  obtain ⟨built, q, run, done⟩ := gives_bind.mp gives
  obtain ⟨rfl, rfl⟩ := gives_pure.mp done
  exact ⟨after, walked.collectedIn after.library typed own
    (covers_selections (collecting_fragmentNamed view typed []) own h.covered run)⟩

theorem accrues_operations (view : SchemaView) (typed : document.Typed typeOf)
    (os : List (Sourced OperationDefinition))
    (own : ∀ o ∈ os, (ExecutableDefinition.operation o.definition).Typed typeOf) :
    (os.mapM (operation view document)).Keeps (Progress.Accrues view document typeOf) :=
  keeps_mapM Progress.accrues_order os fun o mem => accrues_operation view typed (own o mem)

/-- Operations that are built one after the other are all typed, and are all collected in the end. -/
theorem collects_operations (typed : document.Typed typeOf) (os : List (Sourced OperationDefinition))
    (own : ∀ o ∈ os, (ExecutableDefinition.operation o.definition).Typed typeOf)
    (p p' : Progress) (bs : List Operation) (h : p.Collects view document typeOf)
    (gives : (os.mapM (operation view document)).Gives p bs p') :
    ∀ b ∈ bs, b.built.CollectedIn typeOf p'.collector := by
  intro b mem
  have accrual : Progress.Order (Progress.Accrues view document typeOf) := Progress.accrues_order
  have both := (advances_order view document []).and accrual
  obtain ⟨o, memO, q, q', ⟨advances, accrues⟩, here, -, later⟩ := gives_mapM both os
    (fun o mem p => ⟨keeps_operation view document o p, accrues_operation view typed (own o mem) p⟩)
    gives b mem
  have collected := (collects_operation typed (own o memO) (h.next advances accrues) here).2
  exact collected.mono later.grows

end Build

namespace Session

variable {s : Session}

/-- A session has collected, rightly, whatever is met in its fragments. -/
def Collects (s : Session) (typeOf : Name → Name → TypeRef) : Prop :=
  s.progress.Collects s.view s.document typeOf

/-- The call has collected whatever its answer needs, and what was collected stays. -/
structure Gathers (typeOf : Name → Name → TypeRef) (s : Session) (r : Answer × Session) : Prop where
  collects : r.2.Collects typeOf
  grows : ∀ t n, s.progress.collector.Has t n → r.2.progress.collector.Has t n
  answers : ∀ b, r.1.Holds b → b.CollectedIn typeOf r.2.progress.collector

theorem Collects.operation (h : s.Collects typeOf) (typed : s.document.Typed typeOf)
    {o : Sourced OperationDefinition}
    (own : (ExecutableDefinition.operation o.definition).Typed typeOf) :
    Gathers typeOf s ((s.buildOperation o).map Answer.operation id) := by
  have accrues := Build.accrues_operation s.view typed own s.progress
  refine ⟨h.next (Build.keeps_operation s.view s.document o s.progress) accrues, accrues.grows, ?_⟩
  intro b holds
  change Answer.Holds (.operation (s.buildOperation o).1) b at holds
  generalize answer : (s.buildOperation o).1 = r at holds
  cases holds
  exact (Build.collects_operation typed own h (Prod.ext answer rfl)).2

/-- A call keeps what is collected right and complete, and the definitions in its answer are typed
and collected. -/
theorem Collects.call (h : s.Collects typeOf) (typed : s.document.Typed typeOf) {c : Call}
    (own : c.Typed typeOf) : Gathers typeOf s (s.call c) := by
  cases c with
  | operation o => exact h.operation typed own
  | operationNamed name =>
      rw [Session.call, buildOperationNamed]
      cases found : s.document.operation? name with
      | some o => exact h.operation typed (typed _ (Document.defines_of_operation? found))
      | none => exact ⟨h, fun _ _ => id, by rintro b ⟨⟩⟩
  | all =>
      have own : ∀ o ∈ s.document.operations,
          (ExecutableDefinition.operation o.definition).Typed typeOf :=
        fun o mem => typed _ ⟨o.text, mem⟩
      have advances := Build.keeps_operations s.view s.document s.document.operations s.progress
      have accrues := Build.accrues_operations s.view typed _ own s.progress
      refine ⟨h.next advances accrues, accrues.grows, fun b holds => ?_⟩
      change Answer.Holds (.operations s.buildAll.1) b at holds
      generalize answer : s.buildAll.1 = r at holds
      cases holds with
      | operations mem =>
          exact Build.collects_operations typed _ own _ _ _ h (Prod.ext answer rfl) _ mem
  | fragment name =>
      have advances := (Build.fragmentNamed_spec s.view s.document [] name).1 s.progress
      have accrues := (Build.collecting_fragmentNamed s.view typed []).accrues name s.progress
      have after := h.next advances accrues
      refine ⟨after, accrues.grows, fun b holds => ?_⟩
      change Answer.Holds (.fragment (s.buildFragment name).1) b at holds
      generalize answer : (s.buildFragment name).1 = r at holds
      cases holds
      rename_i f
      -- The fragment was covered when it was built, in this call or before.
      have mem := (NamedFragment.mem_of_find? (find?_buildFragment answer)).1
      obtain ⟨earlier, id, rootName, library, walked⟩ := after.library.walked f mem
      obtain ⟨⟨d, defined, same⟩, covers⟩ := after.covered f mem
      exact walked.collectedIn library typed
        (typed _ (same ▸ Document.defines_of_fragment? defined)) covers

theorem Collects.after (typed : document.Typed typeOf) (calls : List Call) :
    ∀ s : Session, s.document = document → s.Collects typeOf → (∀ c ∈ calls, c.Typed typeOf) →
      (s.after calls).Collects typeOf ∧ (s.after calls).document = document
        ∧ ∀ t n, s.progress.collector.Has t n → (s.after calls).progress.collector.Has t n := by
  induction calls with
  | nil => exact fun s same h _ => ⟨h, same, fun _ _ => id⟩
  | cons c calls ih =>
      intro s same h own
      obtain ⟨first, others⟩ := List.forall_mem_cons.mp own
      obtain ⟨h₁, grows₁, -⟩ := h.call (same ▸ typed) first
      obtain ⟨h₂, same₂, grows₂⟩ := ih (s.call c).2 ((s.call_same c).2.trans same) h₁ others
      exact ⟨h₂, same₂, fun t n => grows₂ t n ∘ grows₁ t n⟩

end Session

/-- Where the type of a field follows from the type it is selected on and from its name, the trees of
every definition that a session answers with are typed, and its fields are collected.  The session has
answered any calls before, some of which may have failed; and it may be asked anything afterwards.
In a scope of an entity a tree has fields with the types that follow from the type of the scope; and
for each of them the session has collected, under the type of the scope, one field of its name, which
has its type. -/
theorem trees_are_typed_and_collected (schema : Schema) (document : Document) (next : Nat)
    (s : Session) (started : Session.start schema document next = .ok s)
    (typeOf : Name → Name → TypeRef) (typed : document.Typed typeOf) (before : List Call) (c : Call)
    (later : List Call) (typedCalls : ∀ c' ∈ before ++ c :: later, c'.Typed typeOf)
    (b : BuiltSelections) (answered : ((s.after before).call c).1.Holds b) :
    ∀ e ∈ b.entities.entities, ∀ x ∈ e.tree.scopes, ∀ m ∈ x.2.fields,
      m.type = typeOf (e.tree.scopeType x.1) m.name
        ∧ ((s.after (before ++ c :: later)).progress.collector.fieldsFor
            (e.tree.scopeType x.1)).filter (fun f => f.1 == m.name) = [(m.name, m.type)] := by
  have start : s.Collects typeOf ∧ s.document = document := by
    obtain ⟨view, -, same⟩ := bind_eq_ok.mp started
    cases same
    exact ⟨⟨.nil, FieldCollector.sound_empty, nofun⟩, rfl⟩
  have calls := fun c' mem => typedCalls c' (List.mem_append_left _ mem)
  obtain ⟨own, rest⟩ := List.forall_mem_cons.mp
    fun c' mem => typedCalls c' (List.mem_append_right before mem)
  obtain ⟨h, same, -⟩ := Session.Collects.after typed before s start.2 start.1 calls
  obtain ⟨h', -, answers⟩ := h.call (same ▸ typed) own
  obtain ⟨last, -, grows⟩ := Session.Collects.after typed later ((s.after before).call c).2
    (((s.after before).call_same c).2.trans same) h' rest
  have whole : s.after (before ++ c :: later) = ((s.after before).call c).2.after later := by
    rw [Session.after, List.foldl_append]
    rfl
  intro e memE x memX m memM
  obtain ⟨type, has⟩ := answers b answered e memE x memX m memM
  rw [whole]
  have one := last.sound.filter_fieldsFor (grows _ _ has)
  rw [← type] at one
  exact ⟨type, one⟩

/-- A query comes to the name of a hero's friend through two fragments, after a build that failed: the
name is collected once, with its type, and is so after further builds. -/
theorem friends_name_is_collected :
    let friend := Heroes.heroField "friend" [] [.fragmentSpread "Named" []]
    let o := Heroes.query [.field (Heroes.heroField "hero" [] [.fragmentSpread "Paired" []])]
    let document : Document := ⟨[o], [⟨⟨"Paired", "Hero", [], [.field friend]⟩, none⟩,
      ⟨⟨"Named", "Hero", [], [.field Heroes.nameField]⟩, none⟩]⟩
    let before := [Call.fragment "Missing"]
    let later := [Call.fragment "Named", Call.all]
    ∃ (s : Session) (b : BuiltSelections), Session.start Heroes.schema document 0 = .ok s
      ∧ (s.buildFragment "Missing").1.toOption.isNone = true
      ∧ ((s.after before).call (.operationNamed none)).1.Holds b
      ∧ ∃ e ∈ b.entities.entities, e.location.path.components.length = 2
        ∧ ∃ x ∈ e.tree.scopes, ∃ m ∈ x.2.fields, m.name = "name" ∧ m.type = .named "String"
          ∧ ((s.after (before ++ .operationNamed none :: later)).progress.collector.fieldsFor
              (e.tree.scopeType x.1)).filter (fun f => f.1 == "name")
            = [("name", .named "String")] := by
  intro friend o document before later
  obtain ⟨s, started, check⟩ := (Option.any_eq_true _ _).mp
    (show ((Session.start Heroes.schema document 0).toOption.any fun s =>
      (s.buildFragment "Missing").1.toOption.isNone
        && ((s.after before).buildOperationNamed none).1.toOption.any fun o =>
          o.built.entities.entities.any fun e => e.location.path.components.length == 2
            && e.tree.scopes.any fun x => x.2.fields.any fun m => m.name == "name"
              && e.tree.scopeType x.1 == "Hero") = true by decide +kernel)
  obtain ⟨fails, check⟩ := Bool.and_eq_true_iff.mp check
  obtain ⟨b, answer, check⟩ := (Option.any_eq_true _ _).mp check
  obtain ⟨e, memE, check⟩ := List.any_eq_true.mp check
  obtain ⟨deep, check⟩ := Bool.and_eq_true_iff.mp check
  obtain ⟨x, memX, check⟩ := List.any_eq_true.mp check
  obtain ⟨m, memM, check⟩ := List.any_eq_true.mp check
  obtain ⟨named, onHero⟩ := Bool.and_eq_true_iff.mp check
  have started := eq_ok_of_toOption started
  have answered : ((s.after before).call (.operationNamed none)).1.Holds b.built := by
    change Answer.Holds (.operation ((s.after before).buildOperationNamed none).1) b.built
    rw [eq_ok_of_toOption answer]
    exact .operation
  -- The document is read against the schema, which gives fields their types.
  let typeOf := fun type name => ((Heroes.schema.fieldOf? type name).map FieldDefinition.type).getD
    (.named "Unknown")
  have resolved : document.Resolved Heroes.schema := by
    let spread := fun name => Written.Selection.fragmentSpread name []
    rintro (o' | f) ⟨text, mem⟩
    · obtain rfl : o' = o.definition := congrArg Sourced.definition (List.mem_singleton.mp mem)
      exact ⟨[.field none "hero" [] [] [spread "Paired"]], by decide +kernel⟩
    · rcases List.mem_cons.mp mem with same | mem
      · cases same
        exact ⟨[.field none "friend" [] [] [spread "Named"]], by decide +kernel⟩
      · cases List.mem_singleton.mp mem
        exact ⟨[.field none "name" [] [] []], by decide +kernel⟩
  have typed : document.Typed typeOf := resolved.typed fun type name field found => by
    simp [typeOf, found]
  have typedCalls : ∀ c ∈ before ++ .operationNamed none :: later, c.Typed typeOf := by
    simp [before, later, Call.Typed]
  obtain ⟨type, collected⟩ := trees_are_typed_and_collected Heroes.schema document 0 s started typeOf
    typed before (.operationNamed none) later typedCalls b.built answered e memE x memX m memM
  have named := eq_of_beq named
  have string : m.type = .named "String" := by
    rw [type, eq_of_beq onHero, named]
    decide +kernel
  rw [named, string] at collected
  exact ⟨s, b.built, started, fails, answered, e, memE, eq_of_beq deep, x, memX, m, memM, named, string,
    collected⟩

end SelectionGraph
