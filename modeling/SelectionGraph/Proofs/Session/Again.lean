import SelectionGraph.Proofs.Entity.Onward
import SelectionGraph.Proofs.FieldCollector
import SelectionGraph.Proofs.Session.Gathered
import SelectionGraph.Proofs.Session.Walked

/-!
# Again — a field or an inline fragment that is walked a second time

A walk that comes to a selection notes the field, inserts it and finds the entity it selects, or notes
the deferral of an inline fragment.  What it noted stays, so that another field of the same key and
conditions finds all of this done, whatever was walked in between; only the selections below it are new.

* `Draft.Onward`, `Walked.onward`  — what a draft keeps during a walk;
* `Progress.KeepsFields`              — what the progress keeps;
* `Walk.done_field`, `Walk.done_inline` — what walking a selection comes to;
* `Walk.done_field_again`, `Walk.noteDeferred_again` — a second time.
-/

namespace SelectionGraph

/-! ## What is kept -/

/-- What a draft keeps: its entities with what they absorb, and whether anything is deferred. -/
structure Draft.Onward (d d' : Draft) : Prop where
  entities : d.entities.Onward d'.entities
  deferred : d.containsDeferred = true → d'.containsDeferred = true

namespace Draft.Onward

variable {d d' d'' : Draft}

theorem refl (d : Draft) : d.Onward d :=
  ⟨.refl _, id⟩

theorem trans (h : d.Onward d') (h' : d'.Onward d'') : d.Onward d'' :=
  ⟨h.entities.trans h'.entities, h'.deferred ∘ h.deferred⟩

theorem insertField (d : Draft) (info : TypeInfo) (f : FieldSelection) (i : Inclusion) :
    d.Onward (d.insertField info f i) :=
  ⟨d.entities.onward_modifyTree info.entity fun t => t.onward_insertField _ _, id⟩

theorem noteDeferred (d : Draft) (deferral : Deferral) : d.Onward (d.noteDeferred deferral) where
  entities := .refl _
  deferred before := by rw [Draft.noteDeferred, before, Bool.true_or]

end Draft.Onward

/-- A walk keeps what was in the draft.  The induction is on what the walk has done. -/
theorem Walked.onward {view : SchemaView} {built : List NamedFragment} {info : TypeInfo}
    {direct direct' : DirectSelections} {d d' : Draft} {ss : List Selection}
    (h : Walked view built info direct d ss direct' d') : d.Onward d' := by
  induction h with
  | nil => exact .refl _
  | skipped _ _ ih => exact ih
  | leaf _ _ _ _ ih => exact (Draft.Onward.insertField _ _ _ _).trans ih
  | @entity info _ _ _ _ draft draft₁ _ entities _ f _ inclusion _ _ selected _ _ _ ihInner ih =>
      have selects : (draft.insertField info f inclusion).Onward
          { draft.insertField info f inclusion with entities } :=
        ⟨EntityStorage.onward_entityForField selected, id⟩
      have counts : draft₁.Onward { draft₁ with nextField := draft₁.nextField + 1 } :=
        ⟨.refl _, id⟩
      exact (Draft.Onward.insertField _ _ _ _).trans (selects.trans (ihInner.trans (counts.trans ih)))
  | flat _ _ _ _ _ _ ihInside ih => exact (Draft.Onward.noteDeferred _ _).trans (ihInside.trans ih)
  | inline _ _ _ _ _ _ _ ihInside ih => exact (Draft.Onward.noteDeferred _ _).trans (ihInside.trans ih)
  | spread _ _ _ merged _ _ ih =>
      have merges := EntityStorage.onward_mergeFragmentEntities merged
      have inserts := EntityStorage.onward_modifyTree
      refine .trans ⟨merges.trans (inserts _ _ fun t => t.onward_insertFragment _ _ _), ?_⟩ ih
      intro before
      rw [Draft.reference, before, Bool.true_or]

/-- What progress keeps: the fields that were collected. -/
def Progress.KeepsFields (p p' : Progress) : Prop :=
  ∀ parent name, p.collector.Has parent name → p'.collector.Has parent name

theorem Progress.keepsFields_order : Progress.Order KeepsFields where
  refl _ _ _ := id
  trans h h' parent name := h' parent name ∘ h parent name

/-- The progress after a field was collected. -/
def Progress.collect (p : Progress) (info : TypeInfo) (f : FieldSelection) : Progress :=
  { p with collector := p.collector.collect info.parentType f.name f.type }

theorem Progress.collect_eq_self {p : Progress} {info : TypeInfo} {f : FieldSelection}
    (has : p.collector.Has info.parentType f.name) : p.collect info f = p := by
  rw [collect, FieldCollector.collect_eq_self has]

/-- The draft after an identity was given to a field. -/
def Draft.count (d : Draft) : Draft :=
  { d with nextField := d.nextField + 1 }

/-! ## Walking a selection -/

namespace Walk

variable {view : SchemaView} {lookUp : Name → Build NamedFragment} {info : TypeInfo}
  {direct : DirectSelections} {d d' : Draft} {p p' : Progress}

/-- A way to have fragments that finds them among those that are built, and collects fields on the
way. -/
structure CollectingLookUp (lookUp : Name → Build NamedFragment) : Prop extends LookUp lookUp where
  collects : ∀ name, (lookUp name).Keeps Progress.KeepsFields

theorem collects_all (h : CollectingLookUp lookUp) (info : TypeInfo) (direct : DirectSelections)
    (ss : List Selection) : (all view lookUp info direct ss).Keeps Progress.KeepsFields := by
  refine keeps_all Progress.keepsFields_order h.collects info direct ss fun t f _ p parent name has => ?_
  exact FieldCollector.has_collect.mpr (Or.inl has)

/-- What a walk has kept when it succeeds. -/
theorem kept_all (h : CollectingLookUp lookUp) {ss : List Selection}
    {r : DirectSelections × Draft × Progress}
    (done : (all view lookUp info direct ss).done d p = some r) :
    d.Onward r.2.1 ∧ p.KeepsFields r.2.2 := by
  have gives := done_eq_some.mp done
  exact ⟨(walked_all h.toLookUp info ss _ _ _ _ _ _ gives).onward,
    Gives.kept (collects_all h info direct ss) gives⟩

theorem done_append (ss ts : List Selection) (d : Draft) (p : Progress) :
    (all view lookUp info direct (ss ++ ts)).done d p
      = ((all view lookUp info direct ss).done d p).bind fun r =>
          (all view lookUp info r.1 ts).done r.2.1 r.2.2 := by
  induction ss generalizing direct d p with
  | nil =>
      rw [List.nil_append, all, done_pure, Option.bind_some]
  | cons s ss ih =>
      rw [List.cons_append, all, all, done_bind, done_bind, Option.bind_assoc]
      exact Option.bind_congr fun r _ => ih _ _

theorem done_two (s t : Selection) (d : Draft) (p : Progress) :
    (all view lookUp info direct [s, t]).done d p
      = ((one view lookUp info direct s).done d p).bind fun r =>
          (one view lookUp info r.1 t).done r.2.1 r.2.2 := by
  simp only [all, done_bind, done_pure]
  exact Option.bind_congr fun r _ => Option.bind_fun_some _

theorem done_one (s : Selection) (d : Draft) (p : Progress) :
    (all view lookUp info direct [s]).done d p = (one view lookUp info direct s).done d p := by
  simp only [all, done_bind, done_pure]
  exact Option.bind_fun_some _

theorem done_modifyTree (id : EntityId) (change : SelectionTree → SelectionTree) (d : Draft)
    (p : Progress) : (modifyTree id change).done d p = (d.entities.get? id).map fun _ =>
      ((), { d with entities := d.entities.modifyTree id change }, p) := by
  have got : (getThe Draft : Walk Draft).done d p = some (d, d, p) := rfl
  rw [modifyTree, done_bind, got, Option.bind_some, done_bind, done_ofExcept, Option.bind_map,
    EntityStorage.require]
  cases d.entities.get? id <;> rfl

theorem done_entityForField (enclosing : EntityId) (c : PathComponent) (d : Draft) (p : Progress) :
    (entityForField enclosing c).done d p
      = (d.entities.entityForField enclosing c).toOption.map fun r =>
          (r.1, { d with entities := r.2 }, p) := by
  have got : (getThe Draft : Walk Draft).done d p = some (d, d, p) := rfl
  rw [entityForField, done_bind, got, Option.bind_some, done_bind, done_ofExcept, Option.bind_map]
  cases (d.entities.entityForField enclosing c).toOption <;> rfl

/-- What a field comes to once the entity is found that it selects. -/
def fieldBelow (view : SchemaView) (lookUp : Name → Build NamedFragment)
    (direct : DirectSelections) (f : FieldSelection) (inclusion : Inclusion) (entity : EntityId)
    (d : Draft) (p : Progress) : Option (DirectSelections × Draft × Progress) :=
  ((all view lookUp (f.inside view entity) .empty f.selections).done d p).bind fun r =>
    (direct.join (f.build r.2.1.nextId inclusion ⟨f.inside view entity, r.1⟩).alone).map
      fun joined => (joined, r.2.1.count, r.2.2)

/-- What walking a field comes to. -/
theorem done_field {f : FieldSelection} {inclusion : Inclusion}
    (included : Inclusion.ofDirectives f.directives = .ok (some inclusion)) (d : Draft)
    (p : Progress) : (one view lookUp info direct (.field f)).done d p
      = (d.entities.get? info.entity).bind fun _ =>
        (view.isComposite f.type.innerName).toOption.bind fun composite =>
          if composite then
            ((d.insertField info f inclusion).entities.entityForField info.entity
                ⟨f.responseKey, f.type⟩).toOption.bind fun r =>
              fieldBelow view lookUp direct f inclusion r.1
                { d.insertField info f inclusion with entities := r.2 } (p.collect info f)
          else
            (direct.join (Field.scalar ⟨f, inclusion⟩).alone).map fun joined =>
              (joined, d.insertField info f inclusion, p.collect info f) := by
  obtain ⟨label, definition, arguments, directives, selections⟩ := f
  have collected : ∀ (parent name : Name) (type : TypeRef),
      (ofBuild (Build.collect parent name type)).done d p
        = some ((), d, { p with collector := p.collector.collect parent name type }) :=
    fun _ _ _ => rfl
  have counted : ∀ (d : Draft) (p : Progress), freshField.done d p = some (d.nextId, d.count, p) :=
    fun _ _ => rfl
  rw [one, done_bind, done_ofExcept, included]
  change (ofBuild _ >>= _).done d p = _
  rw [done_bind, collected, Option.bind_some, done_bind, done_modifyTree, Option.bind_map]
  refine Option.bind_congr fun _ _ => ?_
  dsimp only [Function.comp]
  rw [done_bind, done_ofExcept, Option.bind_map]
  refine Option.bind_congr fun composite _ => ?_
  cases composite with
  | false =>
      dsimp only [Function.comp]
      rw [if_neg Bool.false_ne_true, if_neg Bool.false_ne_true, done_ofExcept,
        DirectSelections.addField_toOption]
      rfl
  | true =>
      dsimp only [Function.comp]
      rw [if_pos rfl, if_pos rfl, done_bind, done_entityForField, Option.bind_map]
      refine Option.bind_congr fun r _ => ?_
      dsimp only [Function.comp]
      rw [done_bind]
      refine Option.bind_congr fun below _ => ?_
      rw [done_bind, counted, Option.bind_some, done_ofExcept, DirectSelections.addField_toOption]
      rfl

/-- A field fails whose conditions cannot be read. -/
theorem done_field_of_error {f : FieldSelection} {failure : BuildError}
    (fails : Inclusion.ofDirectives f.directives = .error failure) (d : Draft) (p : Progress) :
    (one view lookUp info direct (.field f)).done d p = none := by
  cases f
  rw [one, done_bind, done_ofExcept, fails]
  rfl

/-- A field is passed over that is never included. -/
theorem done_field_of_skipped {f : FieldSelection}
    (skips : Inclusion.ofDirectives f.directives = .ok none) (d : Draft) (p : Progress) :
    (one view lookUp info direct (.field f)).done d p = some (direct, d, p) := by
  cases f
  rw [one, done_bind, done_ofExcept, skips]
  rfl

/-- What an inline fragment comes to once it is entered. -/
def inlineBelow (view : SchemaView) (lookUp : Name → Build NamedFragment) (info : TypeInfo)
    (direct : DirectSelections) (condition : Option Name) (conditions : Option Conjunction)
    (deferral : Deferral) (selections : List Selection) (d : Draft) (p : Progress) :
    Option (DirectSelections × Draft × Progress) :=
  let inner := info.inside view condition conditions
  if info.flattens condition conditions deferral then (all view lookUp info direct selections).done d p
  else
    ((all view lookUp inner .empty selections).done d p).bind fun r =>
      (direct.join (InlineSpread.alone ⟨⟨inner, r.1⟩, deferral⟩)).map fun joined => (joined, r.2)

/-- What walking an inline fragment comes to. -/
theorem done_inline {condition : Option Name} {directives : List Directive} {verdict : Verdict}
    {conditions : Option Conjunction} {deferral : Deferral}
    (read : Verdict.ofDirectives directives = .ok verdict) (scope : verdict.scope? = some conditions)
    (deferred : Deferral.ofDirectives directives = .ok deferral) (ss : List Selection) (d : Draft)
    (p : Progress) :
    (one view lookUp info direct (.inlineFragment condition directives ss)).done d p
      = inlineBelow view lookUp info direct condition conditions deferral ss
          (d.noteDeferred deferral) p := by
  have noted : (noteDeferred deferral.isDeferred).done d p = some ((), d.noteDeferred deferral, p) :=
    rfl
  rw [one, done_bind, done_ofExcept, read]
  dsimp only [Except.toOption, Option.map_some, Option.bind_some]
  rw [scope]
  change (ofExcept _ >>= _).done d p = _
  rw [done_bind, done_ofExcept, deferred]
  change (noteDeferred _ >>= _).done d p = _
  rw [done_bind, noted, Option.bind_some, inlineBelow]
  change (if info.flattens condition conditions deferral = true then _ else _ : Walk _).done
    (d.noteDeferred deferral) p = _
  by_cases flattens : info.flattens condition conditions deferral = true
  · rw [if_pos flattens, if_pos flattens]
  · rw [if_neg flattens, if_neg flattens, done_bind]
    refine Option.bind_congr fun r _ => ?_
    rw [done_ofExcept, DirectSelections.addInline_toOption]
    rfl

section NotEntered

variable {condition : Option Name} {directives : List Directive} {ss : List Selection}
  {verdict : Verdict} {failure : BuildError}

theorem done_inline_of_error (fails : Verdict.ofDirectives directives = .error failure) (d : Draft)
    (p : Progress) :
    (one view lookUp info direct (.inlineFragment condition directives ss)).done d p = none := by
  rw [one, done_bind, done_ofExcept, fails]
  rfl

/-- An inline fragment is passed over that is never included. -/
theorem done_inline_of_skipped (read : Verdict.ofDirectives directives = .ok verdict)
    (skips : verdict.scope? = none) (d : Draft) (p : Progress) :
    (one view lookUp info direct (.inlineFragment condition directives ss)).done d p
      = some (direct, d, p) := by
  rw [one, done_bind, done_ofExcept, read]
  dsimp only [Except.toOption, Option.map_some, Option.bind_some]
  rw [skips]
  rfl

theorem done_inline_of_deferral_error (read : Verdict.ofDirectives directives = .ok verdict)
    {conditions : Option Conjunction} (scope : verdict.scope? = some conditions)
    (fails : Deferral.ofDirectives directives = .error failure) (d : Draft) (p : Progress) :
    (one view lookUp info direct (.inlineFragment condition directives ss)).done d p = none := by
  rw [one, done_bind, done_ofExcept, read]
  dsimp only [Except.toOption, Option.map_some, Option.bind_some]
  rw [scope]
  change (ofExcept _ >>= _).done d p = _
  rw [done_bind, done_ofExcept, fails]
  rfl

end NotEntered

/-! ## Walking it again -/

section Again

variable {f : FieldSelection} {inclusion : Inclusion} {e : Entity}
  (included : Inclusion.ofDirectives f.directives = .ok (some inclusion))
  (held : d.entities.get? info.entity = some e)

include held

/-- A field that was inserted is inserted again, and nothing changes. -/
theorem insertField_again (onward : (d.insertField info f inclusion).Onward d') :
    d'.insertField info f inclusion = d' := by
  have again := EntityStorage.modifyTree_again held onward.entities
  exact congrArg (fun entities => { d' with entities }) again

include included

/-- A field is walked again that selects on an entity: it finds the entity, and goes on below it. -/
theorem done_field_again {entity : EntityId} {entities : EntityStorage}
    (isComposite : view.isComposite f.type.innerName = .ok true)
    (selected : (d.insertField info f inclusion).entities.entityForField info.entity
      ⟨f.responseKey, f.type⟩ = .ok (entity, entities))
    (onward : ({ d.insertField info f inclusion with entities } : Draft).Onward d')
    (collects : (p.collect info f).KeepsFields p') :
    (one view lookUp info direct (.field f)).done d' p'
      = fieldBelow view lookUp direct f inclusion entity d' p' := by
  have selects : (d.insertField info f inclusion).Onward
      { d.insertField info f inclusion with entities } :=
    ⟨EntityStorage.onward_entityForField selected, id⟩
  have inserts := Draft.Onward.insertField d info f inclusion
  obtain ⟨e', held', -⟩ := (inserts.trans (selects.trans onward)).entities.get? _ _ held
  have has : p'.collector.Has info.parentType f.name :=
    collects _ _ (FieldCollector.has_collect.mpr (Or.inr ⟨rfl, rfl⟩))
  have again := EntityStorage.entityForField_again selected onward.entities
  rw [done_field included, held', isComposite, insertField_again held (selects.trans onward),
    Progress.collect_eq_self has, again]
  rfl

end Again

/-- What was noted of an inline fragment is noted. -/
theorem noteDeferred_again {deferral : Deferral} (onward : (d.noteDeferred deferral).Onward d') :
    d'.noteDeferred deferral = d' := by
  have known : (d'.containsDeferred || deferral.isDeferred) = d'.containsDeferred := by
    cases deferred : deferral.isDeferred with
    | false => rw [Bool.or_false]
    | true =>
        have noted : (d.noteDeferred deferral).containsDeferred = true := by
          rw [Draft.noteDeferred, deferred, Bool.or_true]
        rw [onward.deferred noted, Bool.true_or]
  rw [Draft.noteDeferred, known]

end Walk
end SelectionGraph
