import SelectionGraph.Proofs.Document.Split
import SelectionGraph.Proofs.Session.Again
import SelectionGraph.Proofs.Session.Agree

/-!
# Split — the walks of split selections

A field whose selections are walked in one place and the same field walked in two come to the same: the
second time finds the first, and what is below it is merged into what was below the first, as the walk
of both goes on with what the walk of the first came to.

* `join_wrapped`       — sets below one key are merged before or after they are put there;
* `Walk.split_field`, `Walk.split_inline` — a field or an inline fragment that is split;
* `Walk.agree_split`   — walks of split selections agree.
-/

namespace SelectionGraph

/-! ## Sets below one key -/

namespace DirectSelections

/-- Two sets may be merged before or after they are put below a key of another set. -/
theorem join_wrapped (wrap : DirectSelections → DirectSelections) {x y z : DirectSelections}
    (keyed : (wrap x).Keyed) (keyedZ : z.Keyed) (law : (wrap x).join z = (x.join y).map wrap)
    (direct : DirectSelections) :
    (direct.join (wrap x)).bind (·.join z) = (x.join y).bind fun below => direct.join (wrap below) := by
  rw [join_grouped keyed keyedZ, law, Option.bind_map]
  rfl

/-- Sets that differ in the syntax they keep, below keys that do, are merged into sets that do. -/
theorem images_wrapped (wrap wrap' bareWrap : DirectSelections → DirectSelections)
    (bares : ∀ b, (wrap b).bare = bareWrap b.bare) (bares' : ∀ b, (wrap' b).bare = bareWrap b.bare)
    (x : DirectSelections) {y y' : DirectSelections} (same : y.SameBare y')
    (direct : DirectSelections) : ((x.join y).bind fun b => direct.join (wrap b)).map bare
      = ((x.join y').bind fun b => direct.join (wrap' b)).map bare := by
  have image : ∀ (w : DirectSelections → DirectSelections), (∀ b, (w b).bare = bareWrap b.bare) →
      ∀ z : DirectSelections, ((x.join z).bind fun b => direct.join (w b)).map bare
        = (x.bare.join z.bare).bind fun b => direct.bare.join (bareWrap b) := by
    intro w bares z
    rw [join_bare, Option.map_bind, Option.bind_map]
    refine Option.bind_congr fun b _ => ?_
    rw [Function.comp, Function.comp, ← join_bare, bares]
  rw [image wrap bares, image wrap' bares', same]

end DirectSelections

namespace Field

/-- A field that is built in two places is one that is built in one, with the sets below merged. -/
theorem build_join {f g : FieldSelection} (same : g.responseKey = f.responseKey) (id id' : FieldId)
    (inclusion : Inclusion) (info : TypeInfo) (x y : DirectSelections) :
    (f.build id inclusion ⟨info, x⟩).alone.join (g.build id' inclusion ⟨info, y⟩).alone
      = (x.join y).map fun below => (f.build id inclusion ⟨info, below⟩).alone := by
  have key : (f.build id inclusion ⟨info, x⟩).responseKey
      = (g.build id' inclusion ⟨info, y⟩).responseKey := same.symm
  let held : EntityField := ⟨id, f.responseKey, f.type, some f, inclusion, ⟨info, x⟩⟩
  let added : EntityField := ⟨id', g.responseKey, g.type, some g, inclusion, ⟨info, y⟩⟩
  have entities : held.entity = added.entity := rfl
  calc (f.build id inclusion ⟨info, x⟩).alone.join (g.build id' inclusion ⟨info, y⟩).alone
      = ((entity held).combine (.entity added)).map alone := DirectSelections.join_oneField key
    _ = (x.join y).map fun below => alone (.entity { held with
          inclusion := inclusion.merge inclusion, selectionSet := ⟨info, below⟩ }) := by
        rw [combine_same entities, Option.map_map]
        rfl
    _ = (x.join y).map fun below => (f.build id inclusion ⟨info, below⟩).alone := by
        rw [Inclusion.merge_itself]
        rfl

theorem keyed_build {f : FieldSelection} {id : FieldId} {inclusion : Inclusion} {info : TypeInfo}
    {direct : DirectSelections} (keyed : direct.Keyed) :
    (f.build id inclusion ⟨info, direct⟩).alone.Keyed := by
  refine Keyed.alone ?_
  rintro _ ⟨⟩
  exact keyed

/-- Two sets below a field are merged before it is built, or the field is built with one of them and
then merged with another that has the other one. -/
theorem images_build {whole f g : FieldSelection} (same : whole.bare = f.bare)
    (key : g.responseKey = f.responseKey) {id id₁ : FieldId} (ids : id.bare = id₁.bare)
    (id₂ : FieldId) (inclusion : Inclusion) (info : TypeInfo) {x y y' : DirectSelections}
    (keyed : x.Keyed) (keyed' : y'.Keyed) (alike : y.SameBare y') (direct : DirectSelections) :
    ((x.join y).bind fun below =>
        direct.join (whole.build id inclusion ⟨info, below⟩).alone).map DirectSelections.bare
      = ((direct.join (f.build id₁ inclusion ⟨info, x⟩).alone).bind
          (·.join (g.build id₂ inclusion ⟨info, y'⟩).alone)).map DirectSelections.bare := by
  let built : DirectSelections → DirectSelections := fun below =>
    (f.build id₁ inclusion ⟨info, below⟩).alone
  have merged := DirectSelections.join_wrapped built (keyed_build keyed) (keyed_build keyed')
    (build_join key id₁ id₂ inclusion info x y') direct
  have bares : ∀ (h : FieldSelection) (i : FieldId) (below : DirectSelections),
      (h.build i inclusion ⟨info, below⟩).alone.bare
        = (h.bare.build i.bare inclusion ⟨info, below.bare⟩).alone := by
    intro h i below
    rw [bare_alone]
    rfl
  have images := DirectSelections.images_wrapped
    (fun below => (whole.build id inclusion ⟨info, below⟩).alone) built
    (fun below => (f.bare.build id₁.bare inclusion ⟨info, below⟩).alone)
    (fun below => (bares whole id below).trans (by rw [same, ids])) (bares f id₁) x alike direct
  exact images.trans (congrArg (Option.map DirectSelections.bare) merged).symm

end Field

/-- A type that selections can be made on is no leaf. -/
theorem Schema.SelectsOn.isComposite {view : SchemaView} {type : TypeRef}
    (h : view.schema.SelectsOn type) : view.isComposite type.innerName ≠ .ok false := by
  rw [SchemaView.isComposite]
  cases known : view.schema.kind? type.innerName with
  | none => rintro ⟨⟩
  | some kind =>
      have composite := h kind known
      simp [composite]

namespace Walk

variable {view : SchemaView} {lookUp : Name → Build NamedFragment} {info : TypeInfo}

/-- Merged sets that differ in the syntax they keep end alike. -/
theorem endAlike_of_images {o o' : Option DirectSelections}
    (same : o.map DirectSelections.bare = o'.map DirectSelections.bare) {d d' : Draft}
    {p p' : Progress} (drafts : d.bare = d'.bare) (progress : p.bare = p'.bare) :
    Option.Rel (EndAlike DirectSelections.SameBare) (o.map fun e => (e, d, p))
      (o'.map fun e => (e, d', p')) :=
  rel_map (rel_of_map_eq same) fun _ _ alike => ⟨alike, drafts, progress⟩

/-- What a walk of selections in a row comes to below a field. -/
theorem fieldBelow_append (direct : DirectSelections) (label : Option Name)
    (definition : FieldDefinition) (arguments : List Argument) (directives : List Directive)
    (ss ts : List Selection) (inclusion : Inclusion) (entity : EntityId) (d : Draft) (p : Progress) :
    let f : FieldSelection := ⟨label, definition, arguments, directives, ss ++ ts⟩
    fieldBelow view lookUp direct f inclusion entity d p
      = ((all view lookUp (f.inside view entity) .empty ss).done d p).bind fun r =>
        ((all view lookUp (f.inside view entity) .empty ts).done r.2.1 r.2.2).bind fun s =>
          ((r.1.join s.1).bind fun below => direct.join
            (f.build s.2.1.nextId inclusion ⟨f.inside view entity, below⟩).alone).map fun joined =>
              (joined, s.2.1.count, s.2.2) := by
  intro f
  rw [fieldBelow, done_append, Option.bind_assoc]
  refine Option.bind_congr fun r _ => ?_
  rw [(gathers_all (f.inside view entity) ts).joins, Option.bind_assoc]
  refine Option.bind_congr fun s _ => ?_
  rw [Option.bind_map, Option.map_bind]
  rfl

section Same

variable (collecting : CollectingLookUp lookUp) (lookUps : LookUpsAgree lookUp lookUp)
  (direct : DirectSelections) (label : Option Name) (definition : FieldDefinition)
  (arguments : List Argument) (directives : List Directive) (ss ts : List Selection)

include collecting lookUps

/-- Below a field, selections are walked in a row or in two places. -/
theorem split_below (inclusion : Inclusion) (entity : EntityId) (d : Draft) (p : Progress) :
    Option.Rel (EndAlike DirectSelections.SameBare)
      (fieldBelow view lookUp direct ⟨label, definition, arguments, directives, ss ++ ts⟩ inclusion
        entity d p)
      ((fieldBelow view lookUp direct ⟨label, definition, arguments, directives, ss⟩ inclusion entity
        d p).bind fun r => fieldBelow view lookUp r.1
          ⟨label, definition, arguments, directives, ts⟩ inclusion entity r.2.1 r.2.2) := by
  let whole : FieldSelection := ⟨label, definition, arguments, directives, ss ++ ts⟩
  let first : FieldSelection := ⟨label, definition, arguments, directives, ss⟩
  let second : FieldSelection := ⟨label, definition, arguments, directives, ts⟩
  let inner := whole.inside view entity
  have left := @fieldBelow_append view lookUp direct label definition arguments directives ss ts
    inclusion entity d p
  rw [left, fieldBelow, Option.bind_assoc]
  change Option.Rel _ (((all view lookUp inner .empty ss).done d p).bind _)
    (((all view lookUp inner .empty ss).done d p).bind _)
  cases doneA : (all view lookUp inner .empty ss).done d p with
  | none => exact .none
  | some a =>
      rw [Option.bind_some, Option.bind_some, Option.bind_map]
      change Option.Rel _ (((all view lookUp inner .empty ts).done a.2.1 a.2.2).bind _)
        ((direct.join (first.build a.2.1.nextId inclusion ⟨inner, a.1⟩).alone).bind fun joined =>
          ((all view lookUp inner .empty ts).done a.2.1.count a.2.2).bind fun s =>
            (joined.join (second.build s.2.1.nextId inclusion ⟨inner, s.1⟩).alone).map fun joined =>
              (joined, s.2.1.count, s.2.2))
      -- What is below the second field is walked without a look at the set that holds the first.
      rw [Option.bind_comm]
      have walks : WalksAgree view lookUp lookUp ts ts := agree_all lookUps ts
      have walked := walks inner .empty .empty rfl a.2.1 a.2.1.count a.2.2 a.2.2 rfl rfl
      refine rel_bind (rel_attach walked) ?_
      rintro b b' ⟨⟨below, drafts, progress⟩, doneB, doneB'⟩
      have gathers : Gathers fun direct => all view lookUp inner direct ts := gathers_all inner ts
      have keyedA := (gathers_all inner ss).keyed d p a doneA
      have keyedB := gathers.keyed a.2.1.count a.2.2 b' doneB'
      -- Both fields are numbered in one definition.
      have ids : b.2.1.nextId.bare = a.2.1.nextId.bare :=
        congrArg (fun source : SourceDefinition => (⟨source.id, 0⟩ : FieldId))
          (kept_all collecting doneB).1.entities.source
      have images := Field.images_build (show whole.bare = first.bare from rfl)
        (show second.responseKey = first.responseKey from rfl) ids b'.2.1.nextId inclusion
        inner keyedA keyedB below direct
      have counted : b.2.1.count.bare = b'.2.1.count.bare := drafts
      have ends := endAlike_of_images images counted progress
      exact (congrArg (Option.Rel _ _) Option.map_bind).mp ends

omit lookUps in
/-- What was in the draft and in the progress is kept below a field. -/
theorem kept_below {f : FieldSelection} {inclusion : Inclusion} {entity : EntityId} {d : Draft}
    {p : Progress} {r : DirectSelections × Draft × Progress}
    (made : fieldBelow view lookUp direct f inclusion entity d p = some r) :
    d.Onward r.2.1 ∧ p.KeepsFields r.2.2 := by
  obtain ⟨a, inside, later⟩ := Option.bind_eq_some_iff.mp made
  obtain ⟨joined, -, rfl⟩ := Option.map_eq_some_iff.mp later
  obtain ⟨onward, fields⟩ := kept_all collecting inside
  exact ⟨onward.trans ⟨.refl _, id⟩, fields⟩

/-- A field is walked with all its selections, or twice with some of them each time. -/
theorem split_field (selectsOn : view.schema.SelectsOn definition.type) (d : Draft) (p : Progress) :
    Option.Rel (EndAlike DirectSelections.SameBare)
      ((all view lookUp info direct
        [.field ⟨label, definition, arguments, directives, ss ++ ts⟩]).done d p)
      ((all view lookUp info direct [.field ⟨label, definition, arguments, directives, ss⟩,
        .field ⟨label, definition, arguments, directives, ts⟩]).done d p) := by
  let whole : FieldSelection := ⟨label, definition, arguments, directives, ss ++ ts⟩
  let first : FieldSelection := ⟨label, definition, arguments, directives, ss⟩
  let second : FieldSelection := ⟨label, definition, arguments, directives, ts⟩
  rw [done_one, done_two]
  cases included : Inclusion.ofDirectives directives with
  | error e =>
      rw [done_field_of_error (f := whole) included, done_field_of_error (f := first) included]
      exact .none
  | ok inclusion? =>
  cases inclusion? with
  | none =>
      rw [done_field_of_skipped (f := whole) included, done_field_of_skipped (f := first) included,
        Option.bind_some, done_field_of_skipped (f := second) included]
      exact .some ⟨rfl, rfl, rfl⟩
  | some inclusion =>
  have walk := @done_field view lookUp info direct whole inclusion included d p
  have walkFirst := @done_field view lookUp info direct first inclusion included d p
  rw [walk, walkFirst]
  cases held : d.entities.get? info.entity with
  | none => exact .none
  | some e =>
  -- The second field has the type of the first.
  change Option.Rel _ ((view.isComposite first.type.innerName).toOption.bind _)
    (((view.isComposite first.type.innerName).toOption.bind _).bind _)
  cases composite : view.isComposite first.type.innerName with
  | error e => exact .none
  | ok isComposite =>
  cases isComposite with
  | false => exact absurd composite selectsOn.isComposite
  | true =>
      change Option.Rel _
        (((d.insertField info second inclusion).entities.entityForField info.entity
          ⟨second.responseKey, second.type⟩).toOption.bind _)
        ((((d.insertField info second inclusion).entities.entityForField info.entity
          ⟨second.responseKey, second.type⟩).toOption.bind _).bind _)
      cases selected : (d.insertField info second inclusion).entities.entityForField info.entity
          ⟨second.responseKey, second.type⟩ with
      | error e => exact .none
      | ok r =>
          obtain ⟨entity, entities⟩ := r
          let entered : Draft := { d.insertField info first inclusion with entities }
          have twice := @split_below view lookUp collecting lookUps direct label definition arguments
            directives ss ts inclusion entity entered (p.collect info first)
          refine (congrArg (Option.Rel _ _) ?_).mp twice
          refine Option.bind_congr fun r made => Eq.symm ?_
          obtain ⟨onward, fields⟩ := kept_below collecting direct made
          exact done_field_again (f := second) included held composite selected onward fields

end Same

section Inline

variable (collecting : CollectingLookUp lookUp) (direct : DirectSelections) {condition : Option Name}
  {conditions : Option Conjunction} {deferral : Deferral} (ss ts : List Selection)

include collecting

/-- What was in the draft is kept inside an inline fragment. -/
theorem kept_inside {d : Draft} {p : Progress} {r : DirectSelections × Draft × Progress}
    (made : inlineBelow view lookUp info direct condition conditions deferral ss d p = some r) :
    d.Onward r.2.1 := by
  rw [inlineBelow] at made
  split at made
  · exact (kept_all collecting made).1
  · obtain ⟨a, inside, later⟩ := Option.bind_eq_some_iff.mp made
    obtain ⟨joined, -, rfl⟩ := Option.map_eq_some_iff.mp later
    exact (kept_all collecting inside).1

omit collecting in
/-- Inside an inline fragment, selections are walked in a row or in two places. -/
theorem split_inside (d : Draft) (p : Progress) :
    inlineBelow view lookUp info direct condition conditions deferral (ss ++ ts) d p
      = (inlineBelow view lookUp info direct condition conditions deferral ss d p).bind fun r =>
          inlineBelow view lookUp info r.1 condition conditions deferral ts r.2.1 r.2.2 := by
  simp only [inlineBelow]
  split
  · exact done_append ss ts d p
  · let inner := info.inside view condition conditions
    let wrap : DirectSelections → DirectSelections := fun below =>
      InlineSpread.alone ⟨⟨inner, below⟩, deferral⟩
    have keyed : ∀ below : DirectSelections, below.Keyed → (wrap below).Keyed := fun below keyed =>
      InlineSpread.Keyed.alone keyed
    have law : ∀ x y, (wrap x).join (wrap y) = (x.join y).map wrap := by
      intro x y
      have key : ((InlineSpread.mk ⟨inner, x⟩ deferral).key
          == (InlineSpread.mk ⟨inner, y⟩ deferral).key) = true := BEq.rfl
      refine (DirectSelections.join_oneInline key).trans ?_
      rw [InlineSpread.combine, Option.map_map]
      rfl
    rw [done_append, Option.bind_assoc, Option.bind_assoc]
    refine Option.bind_congr fun a doneA => ?_
    have gathers : Gathers fun direct => all view lookUp inner direct ts := gathers_all inner ts
    have keyedA : a.1.Keyed := (gathers_all inner ss).keyed d p a doneA
    rw [gathers.joins a.1, Option.bind_assoc, Option.bind_map]
    change _ = (direct.join (wrap a.1)).bind fun joined =>
      ((all view lookUp inner .empty ts).done a.2.1 a.2.2).bind fun b =>
        (joined.join (wrap b.1)).map fun all => (all, b.2)
    rw [Option.bind_comm]
    refine Option.bind_congr fun b doneB => ?_
    have merged := DirectSelections.join_wrapped wrap (keyed _ keyedA)
      (keyed _ (gathers.keyed _ _ _ doneB)) (law _ _) direct
    have ends := congrArg (Option.map fun all => (all, b.2)) merged
    rw [Option.map_bind, Option.map_bind] at ends
    rw [Option.bind_map]
    exact ends.symm

/-- An inline fragment is walked with all its selections, or twice with some of them each time. -/
theorem split_inline (directives : List Directive) (d : Draft) (p : Progress) :
    (all view lookUp info direct [.inlineFragment condition directives (ss ++ ts)]).done d p
      = (all view lookUp info direct [.inlineFragment condition directives ss,
          .inlineFragment condition directives ts]).done d p := by
  rw [done_one, done_two]
  cases read : Verdict.ofDirectives directives with
  | error e => rw [done_inline_of_error read, done_inline_of_error read, Option.bind_none]
  | ok verdict =>
  cases scope : verdict.scope? with
  | none =>
      rw [done_inline_of_skipped read scope, done_inline_of_skipped read scope, Option.bind_some,
        done_inline_of_skipped read scope]
  | some conditions =>
  cases deferred : Deferral.ofDirectives directives with
  | error e =>
      rw [done_inline_of_deferral_error read scope deferred,
        done_inline_of_deferral_error read scope deferred, Option.bind_none]
  | ok deferral =>
      rw [done_inline read scope deferred, done_inline read scope deferred, split_inside]
      refine Option.bind_congr fun r made => ?_
      rw [done_inline read scope deferred, noteDeferred_again (kept_inside collecting direct ss made)]

end Inline

/-! ## Walks of split selections -/

namespace WalksAgree

variable {lookUp' : Name → Build NamedFragment} {ss ss' ts ts' us : List Selection} {s s' : Selection}

theorem trans (h : WalksAgree view lookUp lookUp ss ts) (h' : WalksAgree view lookUp lookUp' ts us) :
    WalksAgree view lookUp lookUp' ss us :=
  fun info direct direct' same =>
    (h info direct direct rfl).trans (h' info direct direct' same) fun _ _ _ => Eq.trans

theorem single (h : ∀ (info : TypeInfo) (direct direct' : DirectSelections), direct.SameBare direct' →
      Agree DirectSelections.SameBare (one view lookUp info direct s)
        (one view lookUp' info direct' s')) : WalksAgree view lookUp lookUp' [s] [s'] := by
  intro info direct direct' same d d' p p' drafts progress
  rw [done_one, done_one]
  exact h info direct direct' same d d' p p' drafts progress

theorem append (h : WalksAgree view lookUp lookUp' ss ss')
    (h' : WalksAgree view lookUp lookUp' ts ts') :
    WalksAgree view lookUp lookUp' (ss ++ ts) (ss' ++ ts') := by
  intro info direct direct' same d d' p p' drafts progress
  rw [done_append, done_append]
  refine rel_bind (h info direct direct' same d d' p p' drafts progress) fun r r' alike => ?_
  exact h' info _ _ alike.1 _ _ _ _ alike.2.1 alike.2.2

/-- Walks agree that succeed alike from the same start, if one agrees with itself. -/
theorem of_same (own : WalksAgree view lookUp lookUp ss ss)
    (same : ∀ info direct d p, Option.Rel (EndAlike DirectSelections.SameBare)
      ((all view lookUp info direct ss).done d p) ((all view lookUp info direct ts).done d p)) :
    WalksAgree view lookUp lookUp ss ts := by
  intro info direct direct' bares d d' p p' drafts progress
  refine rel_trans (own info direct direct' bares d d' p p' drafts progress)
    (same info direct' d' p') fun _ _ _ alike alike' => ?_
  exact ⟨alike.1.trans alike'.1, alike.2.1.trans alike'.2.1, alike.2.2.trans alike'.2.2⟩

end WalksAgree

/-- Walks of split selections agree.  The induction is on how they are split. -/
theorem agree_split (collecting : CollectingLookUp lookUp) (lookUps : LookUpsAgree lookUp lookUp)
    {ss ts : List Selection} (h : SelectionGraph.Split view.schema ss ts) :
    WalksAgree view lookUp lookUp ss ts := by
  induction h with
  | refl ss => exact agree_all lookUps ss
  | trans _ _ first second => exact first.trans second
  | append _ _ first second => exact first.append second
  | @field label definition arguments directives selectsOn ss ts =>
      refine .of_same (agree_all lookUps _) fun info direct d p => ?_
      exact split_field collecting lookUps direct label definition arguments directives ss ts
        selectsOn d p
  | inline condition directives ss ts =>
      refine .of_same (agree_all lookUps _) fun info direct d p => ?_
      rw [← split_inline collecting direct ss ts directives d p]
      exact agree_all lookUps _ info direct direct rfl d d p p rfl rfl
  | inField label arguments directives selectsOn _ ih =>
      exact .single fun info _ _ same =>
        agree_field ih (fun leaf => absurd leaf selectsOn.isComposite) info same label arguments directives
  | inInline condition directives _ ih =>
      exact .single fun info _ _ same => agree_inline ih info same condition directives

end Walk
end SelectionGraph
