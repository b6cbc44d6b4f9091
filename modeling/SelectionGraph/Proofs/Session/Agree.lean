import SelectionGraph.Proofs.Session.Bare

/-!
# Agree — steps that succeed alike, up to the syntax that is kept

Two steps agree if, begun alike, both succeed or none does, and they end alike: what they come to, the
drafts and the progress may differ in what `bare` leaves out.

* `Walk.Agree`              — two steps agree, with results that are related;
* `Walk.agree_modifyTree` and so on — the steps that do not ask for fragments agree with themselves;
* `Walk.agree_field`, `Walk.agree_inline` — selections agree if those below them do;
* `Walk.agree_all`          — walks of the same selections agree, if their look-ups do.
-/

namespace SelectionGraph

variable {α β α' β' : Type}

/-- Direct selections differ in nothing but the syntax they keep, and in the numbers of fields. -/
abbrev DirectSelections.SameBare (d e : DirectSelections) : Prop :=
  d.bare = e.bare

/-- Fragments differ in nothing but the syntax they keep, and in the numbers of fields. -/
abbrev NamedFragment.SameBare (f g : NamedFragment) : Prop :=
  f.bare = g.bare

/-! ## Options that are related -/

section Related

variable {R : α → β → Prop} {S : α' → β' → Prop} {o : Option α} {o' : Option β}

theorem rel_map {f : α → α'} {g : β → β'} (h : Option.Rel R o o')
    (images : ∀ a b, R a b → S (f a) (g b)) : Option.Rel S (o.map f) (o'.map g) := by
  cases h with
  | none => exact .none
  | some related => exact .some (images _ _ related)

theorem rel_bind {k : α → Option α'} {k' : β → Option β'} (h : Option.Rel R o o')
    (then_ : ∀ a b, R a b → Option.Rel S (k a) (k' b)) : Option.Rel S (o.bind k) (o'.bind k') := by
  cases h with
  | none => exact .none
  | some related => exact then_ _ _ related

theorem rel_mono {R' : α → β → Prop} (h : Option.Rel R o o') (weaker : ∀ a b, R a b → R' a b) :
    Option.Rel R' o o' := by
  cases h with
  | none => exact .none
  | some related => exact .some (weaker _ _ related)

theorem rel_symm (h : Option.Rel R o o') : Option.Rel (fun b a => R a b) o' o := by
  cases h with
  | none => exact .none
  | some related => exact .some related

theorem rel_trans {γ : Type} {R' : β → γ → Prop} {R'' : α → γ → Prop} {o'' : Option γ}
    (h : Option.Rel R o o') (h' : Option.Rel R' o' o'') (both : ∀ a b c, R a b → R' b c → R'' a c) :
    Option.Rel R'' o o'' := by
  cases h with
  | none =>
      cases h'
      exact .none
  | some related =>
      cases h' with
      | some related' => exact .some (both _ _ _ related related')

/-- What is related may be known to be what the options are. -/
theorem rel_attach (h : Option.Rel R o o') :
    Option.Rel (fun a b => R a b ∧ o = some a ∧ o' = some b) o o' := by
  cases h with
  | none => exact .none
  | some related => exact .some ⟨related, rfl, rfl⟩

/-- Options are related by their images, if these are the same. -/
theorem rel_of_map_eq {γ : Type} {f : α → γ} {g : β → γ} (same : o.map f = o'.map g) :
    Option.Rel (fun a b => f a = g b) o o' := by
  cases o with
  | none =>
      rw [Option.map_none, eq_comm, Option.map_eq_none_iff] at same
      exact same ▸ .none
  | some a =>
      rw [Option.map_some, eq_comm, Option.map_eq_some_iff] at same
      obtain ⟨b, rfl, image⟩ := same
      exact .some image.symm

end Related

/-! ## Agreement -/

namespace Draft

/-- Drafts that are alike have entities that are. -/
theorem entities_alike (d : Draft) {d' : Draft} (same : d.bare = d'.bare) :
    d.entities.bare = d'.entities.bare :=
  congrArg Draft.entities same

/-- Drafts that are alike stay so when their entities are replaced alike. -/
theorem alike_entities (d : Draft) {d' : Draft} (same : d.bare = d'.bare)
    {entities entities' : EntityStorage} (alike : entities.bare = entities'.bare) :
    ({ d with entities } : Draft).bare = ({ d' with entities := entities' } : Draft).bare :=
  congrArg₂ (fun (d : Draft) entities => { d with entities }) same alike

end Draft

namespace Walk

variable {S : α → β → Prop} {T : α' → β' → Prop}

/-- Results are related, and drafts and progress are alike. -/
def EndAlike (S : α → β → Prop) (r : α × Draft × Progress) (r' : β × Draft × Progress) : Prop :=
  S r.1 r'.1 ∧ r.2.1.bare = r'.2.1.bare ∧ r.2.2.bare = r'.2.2.bare

/-- Two steps, begun alike, succeed alike or fail both. -/
def Agree (S : α → β → Prop) (w : Walk α) (w' : Walk β) : Prop :=
  ∀ d d' p p', d.bare = d'.bare → p.bare = p'.bare →
    Option.Rel (EndAlike S) (w.done d p) (w'.done d' p')

namespace Agree

theorem bind {w : Walk α} {w' : Walk β} {k : α → Walk α'} {k' : β → Walk β'} (first : Agree S w w')
    (then_ : ∀ a b, S a b → Agree T (k a) (k' b)) : Agree T (w >>= k) (w' >>= k') := by
  intro d d' p p' drafts progress
  rw [done_bind, done_bind]
  refine rel_bind (first d d' p p' drafts progress) fun r r' alike => ?_
  exact then_ _ _ alike.1 _ _ _ _ alike.2.1 alike.2.2

theorem mono {S' : α → β → Prop} {w : Walk α} {w' : Walk β} (h : Agree S w w')
    (weaker : ∀ a b, S a b → S' a b) : Agree S' w w' :=
  fun d d' p p' drafts progress => rel_mono (h d d' p p' drafts progress) fun _ _ alike =>
    ⟨weaker _ _ alike.1, alike.2⟩

theorem symm {w : Walk α} {w' : Walk β} (h : Agree S w w') : Agree (fun b a => S a b) w' w :=
  fun d d' p p' drafts progress =>
    rel_mono (rel_symm (h d' d p' p drafts.symm progress.symm)) fun _ _ alike =>
      ⟨alike.1, alike.2.1.symm, alike.2.2.symm⟩

theorem trans {γ : Type} {S' : β → γ → Prop} {S'' : α → γ → Prop} {w : Walk α} {w' : Walk β}
    {w'' : Walk γ} (h : Agree S w w') (h' : Agree S' w' w'')
    (both : ∀ a b c, S a b → S' b c → S'' a c) : Agree S'' w w'' :=
  fun d d' p p' drafts progress =>
    rel_trans (h d d p p rfl rfl) (h' d d' p p' drafts progress) fun _ _ _ alike alike' =>
      ⟨both _ _ _ alike.1 alike'.1, alike.2.1.trans alike'.2.1, alike.2.2.trans alike'.2.2⟩

end Agree

/-! ## Steps that do not ask for fragments -/

theorem agree_pure {a : α} {b : β} (same : S a b) : Agree S (pure a) (pure b) :=
  fun _ _ _ _ drafts progress => .some ⟨same, drafts, progress⟩

theorem agree_ofExcept {r : Except BuildError α} {r' : Except BuildError β}
    (same : Option.Rel S r.toOption r'.toOption) : Agree S (ofExcept r) (ofExcept r') := by
  intro d d' p p' drafts progress
  rw [done_ofExcept, done_ofExcept]
  exact rel_map same fun _ _ same => ⟨same, drafts, progress⟩

/-- The same result, of which it is known where it comes from. -/
theorem agree_known (r : Except BuildError α) :
    Agree (fun a b => r = .ok a ∧ a = b) (ofExcept r) (ofExcept r) := by
  refine agree_ofExcept ?_
  cases r with
  | error _ => exact .none
  | ok _ => exact .some ⟨rfl, rfl⟩

theorem agree_plain (r : Except BuildError α) : Agree Eq (ofExcept r) (ofExcept r) :=
  (agree_known r).mono fun _ _ => And.right

/-- Results whose images are the same. -/
theorem agree_images {γ : Type} {f : α → γ} {g : β → γ} {r : Except BuildError α}
    {r' : Except BuildError β} (same : r.toOption.map f = r'.toOption.map g) :
    Agree (fun a b => f a = g b) (ofExcept r) (ofExcept r') :=
  agree_ofExcept (rel_of_map_eq same)

theorem agree_get : Agree (fun d d' : Draft => d.bare = d'.bare) (getThe Draft) (getThe Draft) :=
  fun _ _ _ _ drafts progress => .some ⟨drafts, drafts, progress⟩

theorem agree_set {d d' : Draft} (same : d.bare = d'.bare) :
    Agree Eq (set d : Walk PUnit) (set d' : Walk PUnit) :=
  fun _ _ _ _ _ progress => .some ⟨rfl, same, progress⟩

theorem agree_modify {g g' : Draft → Draft}
    (same : ∀ d d' : Draft, d.bare = d'.bare → (g d).bare = (g' d').bare) :
    Agree Eq (modifyThe Draft g : Walk PUnit) (modifyThe Draft g' : Walk PUnit) :=
  fun d d' _ _ drafts progress => .some ⟨rfl, same d d' drafts, progress⟩

theorem agree_collect (parent field : Name) (type : TypeRef) :
    Agree Eq (ofBuild (Build.collect parent field type)) (ofBuild (Build.collect parent field type)) := by
  intro d d' p p' drafts progress
  refine .some ⟨rfl, drafts, ?_⟩
  exact congrArg (fun p => { p with collector := p.collector.collect parent field type }) progress

theorem agree_noteDeferred (isDeferred : Bool) :
    Agree Eq (noteDeferred isDeferred) (noteDeferred isDeferred) :=
  agree_modify fun _ _ same =>
    congrArg (fun d => { d with containsDeferred := d.containsDeferred || isDeferred }) same

theorem agree_freshField :
    Agree (fun id id' : FieldId => id.bare = id'.bare) freshField freshField := by
  refine .bind agree_get fun d d' same => ?_
  have set_ : (({ d with nextField := d.nextField + 1 } : Draft)).bare
      = ({ d' with nextField := d'.nextField + 1 } : Draft).bare := same
  refine .bind (agree_set set_) fun _ _ _ => agree_pure ?_
  exact congrArg (fun d => (⟨d.entities.source.id, 0⟩ : FieldId)) same

/-- Results whose images are the same, as a renaming of them shows. -/
theorem agree_mapped {γ : Type} {f : α → γ} {g : β → γ} {r : Except BuildError α}
    {r' : Except BuildError β} (same : r.map f = r'.map g) :
    Agree (fun a b => f a = g b) (ofExcept r) (ofExcept r') := by
  refine agree_images ?_
  rw [← toOption_map, ← toOption_map, same]

theorem agree_modifyTree (id : EntityId) (change : SelectionTree → SelectionTree) :
    Agree Eq (modifyTree id change) (modifyTree id change) := by
  refine .bind agree_get fun d d' same => ?_
  have held := congrArg (·.require id .toSelectOn) (d.entities_alike same)
  simp only [EntityStorage.require_bare] at held
  refine .bind (agree_mapped held) fun _ _ _ => agree_set (d.alike_entities same ?_)
  have changed := congrArg (·.modifyTree id change) (d.entities_alike same)
  simpa only [EntityStorage.modifyTree_bare] using changed

theorem agree_entityForField (enclosing : EntityId) (c : PathComponent) :
    Agree Eq (entityForField enclosing c) (entityForField enclosing c) := by
  refine .bind agree_get fun d d' same => ?_
  have selected := congrArg (·.entityForField enclosing c) (d.entities_alike same)
  simp only [EntityStorage.entityForField_bare] at selected
  refine .bind (agree_mapped selected) fun r r' alike => ?_
  obtain ⟨ids, entities⟩ := Prod.mk.inj alike
  exact .bind (agree_set (d.alike_entities same entities)) fun _ _ _ => agree_pure ids

theorem agree_mergeFragmentEntities (site : TypeInfo) (guard : Inclusion)
    {fragment fragment' : NamedFragment} (alike : fragment.bare = fragment'.bare) :
    Agree Eq (mergeFragmentEntities site guard fragment)
      (mergeFragmentEntities site guard fragment') := by
  refine .bind agree_get fun d d' same => ?_
  have built : fragment.built.entities.bare = fragment'.built.entities.bare := by
    rw [← BuiltSelections.entities_bare, ← BuiltSelections.entities_bare]
    exact congrArg (fun f => f.built.entities) alike
  have merged := congrArg₂ (fun s t : EntityStorage => s.mergeFragmentEntities site.entity
    site.scopePath guard t) (d.entities_alike same) built
  simp only [EntityStorage.mergeFragmentEntities_bare] at merged
  exact .bind (agree_mapped merged) fun _ _ entities => agree_set (d.alike_entities same entities)

theorem agree_recordReference {fragment fragment' : NamedFragment}
    (alike : fragment.bare = fragment'.bare) :
    Agree Eq (recordReference fragment) (recordReference fragment') := by
  refine agree_modify fun d d' same => ?_
  have listed : (fragment :: fragment.built.referenced).map NamedFragment.bare
      = (fragment' :: fragment'.built.referenced).map NamedFragment.bare := by
    rw [List.map_cons, List.map_cons, ← BuiltSelections.referenced_bare,
      ← BuiltSelections.referenced_bare]
    exact congrArg₂ List.cons alike (congrArg (fun f => f.built.referenced) alike)
  have before : d.referenced.map NamedFragment.bare = d'.referenced.map NamedFragment.bare :=
    congrArg Draft.referenced same
  have added := congrArg₂ (List.foldl addReference) before listed
  rw [foldl_addReference_map NamedFragment.name_bare,
    foldl_addReference_map NamedFragment.name_bare] at added
  exact congrArg₂ (fun (d : Draft) referenced => { d with referenced }) same added

/-- Sets that are alike are merged into sets that are. -/
theorem agree_merging {direct direct' e e' : DirectSelections} (same : direct.SameBare direct')
    (added : e.SameBare e') {r r' : Except BuildError DirectSelections}
    (adds : r.toOption = direct.join e) (adds' : r'.toOption = direct'.join e') :
    Agree DirectSelections.SameBare (ofExcept r) (ofExcept r') := by
  refine agree_images ?_
  rw [adds, adds', ← DirectSelections.join_bare, ← DirectSelections.join_bare, same, added]

theorem agree_addField {direct direct' : DirectSelections} (same : direct.SameBare direct')
    {f f' : Field} (added : f.bare = f'.bare) :
    Agree DirectSelections.SameBare (ofExcept (direct.addField f)) (ofExcept (direct'.addField f')) := by
  have alone : f.alone.SameBare f'.alone := by
    rw [DirectSelections.SameBare, Field.bare_alone, Field.bare_alone, added]
  exact agree_merging same alone (direct.addField_toOption f) (direct'.addField_toOption f')

theorem agree_addInline {direct direct' : DirectSelections} (same : direct.SameBare direct')
    {s s' : InlineSpread} (added : s.bare = s'.bare) :
    Agree DirectSelections.SameBare (ofExcept (direct.addInline s)) (ofExcept (direct'.addInline s')) := by
  have alone : s.alone.SameBare s'.alone := by
    rw [DirectSelections.SameBare, InlineSpread.bare_alone, InlineSpread.bare_alone, added]
  exact agree_merging same alone (direct.addInline_toOption s) (direct'.addInline_toOption s')

theorem agree_addSpread (info : TypeInfo) {direct direct' : DirectSelections}
    (same : direct.SameBare direct') {s s' : NamedSpread} (added : s.bare = s'.bare) :
    Agree DirectSelections.SameBare (ofExcept (addSpread info direct s))
      (ofExcept (addSpread info direct' s')) := by
  have alone : (spreadAlone info s).SameBare (spreadAlone info s') := by
    rw [DirectSelections.SameBare, ← spreadAlone_bare, ← spreadAlone_bare, added]
  exact agree_merging same alone (addSpread_toOption info direct s)
    (addSpread_toOption info direct' s')

/-! ## Walks -/

/-- Two ways to have fragments agree. -/
def LookUpsAgree (lookUp lookUp' : Name → Build NamedFragment) : Prop :=
  ∀ name, Agree NamedFragment.SameBare (ofBuild (lookUp name)) (ofBuild (lookUp' name))

section Walks

variable {view : SchemaView} {lookUp lookUp' : Name → Build NamedFragment}

theorem LookUpsAgree.symm (h : LookUpsAgree lookUp lookUp') : LookUpsAgree lookUp' lookUp :=
  fun name => (h name).symm.mono fun _ _ => Eq.symm

theorem LookUpsAgree.trans {lookUp'' : Name → Build NamedFragment} (h : LookUpsAgree lookUp lookUp')
    (h' : LookUpsAgree lookUp' lookUp'') : LookUpsAgree lookUp lookUp'' :=
  fun name => (h name).trans (h' name) fun _ _ _ => Eq.trans

theorem agree_spread (lookUps : LookUpsAgree lookUp lookUp') (info : TypeInfo)
    {direct direct' : DirectSelections} (same : direct.SameBare direct') (name : Name)
    (directives : List Directive) :
    Agree DirectSelections.SameBare (spread view lookUp info direct name directives)
      (spread view lookUp' info direct' name directives) := by
  refine .bind (agree_plain _) ?_
  rintro (_ | inclusion) _ ⟨⟩
  · exact agree_pure same
  · refine .bind (agree_plain _) ?_
    rintro deferral _ ⟨⟩
    refine .bind (lookUps name) fun fragment fragment' alike => ?_
    have deferred : fragment.built.containsDeferred = fragment'.built.containsDeferred := by
      rw [← BuiltSelections.containsDeferred_bare, ← fragment'.built.containsDeferred_bare]
      exact congrArg (fun f => f.built.containsDeferred) alike
    have condition : fragment.definition.typeCondition = fragment'.definition.typeCondition :=
      congrArg (fun f => f.definition.typeCondition) alike
    have named : fragment.name = fragment'.name := congrArg (fun f => f.definition.name) alike
    have handles : fragment.handle.bare = fragment'.handle.bare := by
      rw [← NamedFragment.handle_bare, ← NamedFragment.handle_bare]
      exact congrArg NamedFragment.handle alike
    rw [deferred, condition, named]
    refine .bind (agree_recordReference alike) fun _ _ _ => ?_
    refine .bind (agree_noteDeferred _) fun _ _ _ => ?_
    refine .bind (agree_mergeFragmentEntities _ _ alike) fun _ _ _ => ?_
    refine .bind (agree_modifyTree _ _) fun _ _ _ => ?_
    exact agree_addSpread info same
      (congrArg (fun handle => (⟨handle, _, inclusion, deferral⟩ : NamedSpread)) handles)

/-- Two walks agree on every set and on sets that are alike. -/
def WalksAgree (view : SchemaView) (lookUp lookUp' : Name → Build NamedFragment)
    (ss ss' : List Selection) : Prop :=
  ∀ (info : TypeInfo) (direct direct' : DirectSelections), direct.SameBare direct' →
    Agree DirectSelections.SameBare (all view lookUp info direct ss) (all view lookUp' info direct' ss')

/-- Fields agree that differ in the selections below them, if these agree and are the same below a
leaf. -/
theorem agree_field {ss ss' : List Selection} (inner : WalksAgree view lookUp lookUp' ss ss')
    {definition : FieldDefinition}
    (leaf : view.isComposite definition.type.innerName = .ok false → ss = ss')
    (info : TypeInfo) {direct direct' : DirectSelections} (same : direct.SameBare direct')
    (label : Option Name) (arguments : List Argument) (directives : List Directive) :
    Agree DirectSelections.SameBare
      (one view lookUp info direct (.field ⟨label, definition, arguments, directives, ss⟩))
      (one view lookUp' info direct' (.field ⟨label, definition, arguments, directives, ss'⟩)) := by
  rw [one, one]
  refine .bind (agree_plain _) ?_
  rintro (_ | inclusion) _ ⟨⟩
  · exact agree_pure same
  · refine .bind (agree_collect _ _ _) fun _ _ _ => ?_
    refine .bind (agree_modifyTree _ _) fun _ _ _ => ?_
    refine .bind (agree_known _) ?_
    rintro (_ | _) _ ⟨composite, rfl⟩
    · rw [leaf composite]
      exact agree_addField same rfl
    · refine .bind (agree_entityForField _ _) ?_
      rintro entity _ ⟨⟩
      refine .bind (inner _ _ _ rfl) fun below below' alike => ?_
      refine .bind agree_freshField fun id id' ids => agree_addField same ?_
      rw [Field.bare, Field.bare, EntityField.bare, EntityField.bare, ids, SelectionSet.bare,
        SelectionSet.bare, alike]
      rfl

/-- Inline fragments agree that differ in the selections inside, if these agree. -/
theorem agree_inline {ss ss' : List Selection} (inner : WalksAgree view lookUp lookUp' ss ss')
    (info : TypeInfo) {direct direct' : DirectSelections} (same : direct.SameBare direct')
    (condition : Option Name) (directives : List Directive) :
    Agree DirectSelections.SameBare
      (one view lookUp info direct (.inlineFragment condition directives ss))
      (one view lookUp' info direct' (.inlineFragment condition directives ss')) := by
  rw [one, one]
  refine .bind (agree_plain _) ?_
  rintro verdict _ ⟨⟩
  cases verdict.scope? with
  | none => exact agree_pure same
  | some conditions =>
      refine .bind (agree_plain _) ?_
      rintro deferral _ ⟨⟩
      refine .bind (agree_noteDeferred _) fun _ _ _ => ?_
      dsimp only
      split
      · exact inner info _ _ same
      · refine .bind (inner _ _ _ rfl) fun below below' alike => agree_addInline same ?_
        rw [InlineSpread.bare, InlineSpread.bare, SelectionSet.bare, SelectionSet.bare, alike]

mutual

theorem agree_one (lookUps : LookUpsAgree lookUp lookUp') (info : TypeInfo)
    {direct direct' : DirectSelections} (same : direct.SameBare direct') : ∀ s : Selection,
    Agree DirectSelections.SameBare (one view lookUp info direct s) (one view lookUp' info direct' s)
  | .field ⟨label, definition, arguments, directives, selections⟩ =>
      agree_field (agree_all lookUps selections) (fun _ => rfl) info same label arguments directives
  | .inlineFragment condition directives selections =>
      agree_inline (agree_all lookUps selections) info same condition directives
  | .fragmentSpread name directives => by
      rw [one, one]
      exact agree_spread lookUps info same name directives

/-- Walks of the same selections agree, if their look-ups do. -/
theorem agree_all (lookUps : LookUpsAgree lookUp lookUp') :
    ∀ ss : List Selection, WalksAgree view lookUp lookUp' ss ss
  | [], _, _, _, same => by
      rw [all, all]
      exact agree_pure same
  | s :: ss, info, _, _, same => by
      rw [all, all]
      exact .bind (agree_one lookUps info same s) fun _ _ alike => agree_all lookUps ss info _ _ alike

end

end Walks

end Walk
end SelectionGraph
