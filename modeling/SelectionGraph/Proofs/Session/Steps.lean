import SelectionGraph.Session.Walk

/-!
# Steps — what the steps of a walk and of a build do when they are run

A step of a walk turns a draft and the progress of the session into a result and further progress;
progress stays when the step fails.

* `Build.Gives`, `Walk.Gives` — a step succeeds with a result;
* `gives_bind` and so on      — what the success of each step comes to;
* `Walk.foldl_addReference_map` — recorded fragments under a map that keeps their names;
* `Selected`                  — a field stands in selections, at any depth, and is selected on a type
  there; spreads are not followed;
* `Build.Keeps`, `Walk.Keeps` — progress before and after a step are related, whether it succeeds or
  fails;
* `Walk.keeps_all`            — a walk keeps what the collecting of fields and its look-up of fragments
  keep.
-/

namespace SelectionGraph

variable {α β : Type}

/-! ## Running -/

/-- The result of a step of a session, and the progress after it. -/
def Build.result (b : Build α) (p : Progress) : Except BuildError α × Progress :=
  StateT.run (ExceptT.run b) p

/-- The result of a step of a walk, and the progress after it. -/
def Walk.result (w : Walk α) (d : Draft) (p : Progress) : Except BuildError (α × Draft) × Progress :=
  Build.result (StateT.run w d) p

/-- A step of a session succeeds. -/
def Build.Gives (b : Build α) (p : Progress) (a : α) (p' : Progress) : Prop :=
  b.result p = (.ok a, p')

/-- A step of a walk succeeds. -/
def Walk.Gives (w : Walk α) (d : Draft) (p : Progress) (a : α) (d' : Draft) (p' : Progress) : Prop :=
  w.result d p = (.ok (a, d'), p')

namespace Build

theorem result_bind (b : Build α) (k : α → Build β) (p : Progress) :
    (b >>= k).result p
      = match b.result p with
        | (.ok a, p') => (k a).result p'
        | (.error e, p') => (.error e, p') := by
  unfold result ExceptT.run StateT.run
  simp only [bind, ExceptT.bind, ExceptT.mk, StateT.bind]
  rcases b p with ⟨e | a, p'⟩ <;> rfl

theorem gives_bind {b : Build α} {k : α → Build β} {p p'' : Progress} {c : β} :
    (b >>= k).Gives p c p'' ↔ ∃ a p', b.Gives p a p' ∧ (k a).Gives p' c p'' := by
  unfold Gives
  rw [result_bind]
  rcases b.result p with ⟨e | a, p'⟩
  · simp
  · constructor
    · exact fun done => ⟨a, p', rfl, done⟩
    · rintro ⟨_, _, ⟨⟩, done⟩
      exact done

theorem gives_pure {a b : α} {p p' : Progress} :
    (pure a : Build α).Gives p b p' ↔ a = b ∧ p = p' := by
  change ((Except.ok a, p) : Except BuildError α × Progress) = (.ok b, p') ↔ _
  simp

end Build

namespace Walk

variable {d d' d'' : Draft} {p p' p'' : Progress}

theorem result_bind (w : Walk α) (k : α → Walk β) (d : Draft) (p : Progress) :
    (w >>= k).result d p
      = match w.result d p with
        | (.ok (a, d'), p') => (k a).result d' p'
        | (.error e, p') => (.error e, p') := by
  change Build.result (StateT.run w d >>= fun r => StateT.run (k r.1) r.2) p = _
  rw [Build.result_bind]
  unfold result
  rcases Build.result (StateT.run w d) p with ⟨e | ⟨a, d'⟩, p'⟩ <;> rfl

theorem result_ofBuild (b : Build α) (d : Draft) (p : Progress) :
    (ofBuild b).result d p = ((b.result p).1.map (·, d), (b.result p).2) := by
  change Build.result (b >>= fun a => pure (a, d)) p = _
  rw [Build.result_bind]
  rcases b.result p with ⟨e | a, p'⟩ <;> rfl

theorem gives_bind {w : Walk α} {k : α → Walk β} {c : β} :
    (w >>= k).Gives d p c d'' p''
      ↔ ∃ a d' p', w.Gives d p a d' p' ∧ (k a).Gives d' p' c d'' p'' := by
  unfold Gives
  rw [result_bind]
  rcases w.result d p with ⟨e | ⟨a, d'⟩, p'⟩
  · simp
  · constructor
    · exact fun done => ⟨a, d', p', rfl, done⟩
    · rintro ⟨_, _, _, ⟨⟩, done⟩
      exact done

theorem gives_pure {a b : α} :
    (pure a : Walk α).Gives d p b d' p' ↔ a = b ∧ d = d' ∧ p = p' := by
  change ((Except.ok (a, d), p) : Except BuildError (α × Draft) × Progress) = (.ok (b, d'), p') ↔ _
  simp [and_assoc]

/-! ## Success of the steps of a walk -/

theorem gives_ofExcept {e : Except BuildError α} {a : α} :
    (ofExcept e).Gives d p a d' p' ↔ e = .ok a ∧ d = d' ∧ p = p' := by
  cases e with
  | ok b =>
      rw [Except.ok.injEq]
      exact gives_pure
  | error e =>
      change ((Except.error e, p) : Except BuildError (α × Draft) × Progress) = (.ok (a, d'), p') ↔ _
      simp

theorem gives_ofBuild {b : Build α} {a : α} :
    (ofBuild b).Gives d p a d' p' ↔ b.Gives p a p' ∧ d = d' := by
  change Build.Gives (b >>= fun a => pure (a, d)) p (a, d') p' ↔ _
  simp only [Build.gives_bind, Build.gives_pure, Prod.mk.injEq]
  constructor
  · rintro ⟨a', q, gives, ⟨rfl, rfl⟩, rfl⟩
    exact ⟨gives, rfl⟩
  · rintro ⟨gives, rfl⟩
    exact ⟨a, p', gives, ⟨rfl, rfl⟩, rfl⟩

theorem gives_get {a : Draft} :
    (getThe Draft : Walk Draft).Gives d p a d' p' ↔ a = d ∧ d = d' ∧ p = p' := by
  change ((Except.ok (d, d), p) : Except BuildError (Draft × Draft) × Progress)
    = (.ok (a, d'), p') ↔ _
  simp [and_assoc, eq_comm]

theorem gives_set {draft : Draft} {u : PUnit} :
    (set draft : Walk PUnit).Gives d p u d' p' ↔ d' = draft ∧ p = p' := by
  change ((Except.ok (PUnit.unit, draft), p) : Except BuildError (PUnit × Draft) × Progress)
    = (.ok (u, d'), p') ↔ _
  simp [eq_comm]

theorem gives_modify {f : Draft → Draft} {u : PUnit} :
    (modifyThe Draft f : Walk PUnit).Gives d p u d' p' ↔ d' = f d ∧ p = p' := by
  change ((Except.ok (PUnit.unit, f d), p) : Except BuildError (PUnit × Draft) × Progress)
    = (.ok (u, d'), p') ↔ _
  simp [eq_comm]

theorem gives_modifyTree {id : EntityId} {change : SelectionTree → SelectionTree} {u : Unit} :
    (modifyTree id change).Gives d p u d' p'
      ↔ (∃ e, d.entities.require id .toSelectOn = .ok e)
        ∧ d' = { d with entities := d.entities.modifyTree id change } ∧ p = p' := by
  simp only [modifyTree, gives_bind, gives_get, gives_ofExcept, gives_set]
  constructor
  · rintro ⟨_, _, _, ⟨rfl, rfl, rfl⟩, e, _, _, ⟨found, rfl, rfl⟩, rfl, rfl⟩
    exact ⟨⟨e, found⟩, rfl, rfl⟩
  · rintro ⟨⟨e, found⟩, rfl, rfl⟩
    exact ⟨d, d, p, ⟨rfl, rfl, rfl⟩, e, d, p, ⟨found, rfl, rfl⟩, rfl, rfl⟩

theorem gives_entityForField {enclosing id : EntityId} {component : PathComponent} :
    (entityForField enclosing component).Gives d p id d' p'
      ↔ ∃ entities, d.entities.entityForField enclosing component = .ok (id, entities)
        ∧ d' = { d with entities } ∧ p = p' := by
  simp only [entityForField, gives_bind, gives_get, gives_ofExcept, gives_set, gives_pure]
  constructor
  · rintro ⟨_, _, _, ⟨rfl, rfl, rfl⟩, ⟨i, s⟩, _, _, ⟨found, rfl, rfl⟩, _, _, _, ⟨rfl, rfl⟩, rfl, rfl,
      rfl⟩
    exact ⟨s, found, rfl, rfl⟩
  · rintro ⟨s, found, rfl, rfl⟩
    exact ⟨d, d, p, ⟨rfl, rfl, rfl⟩, (id, s), d, p, ⟨found, rfl, rfl⟩, (), _, p, ⟨rfl, rfl⟩, rfl, rfl,
      rfl⟩

theorem gives_mergeFragmentEntities {site : TypeInfo} {guard : Inclusion} {fragment : NamedFragment}
    {u : Unit} :
    (mergeFragmentEntities site guard fragment).Gives d p u d' p'
      ↔ ∃ entities, d.entities.mergeFragmentEntities site.entity site.scopePath guard
          fragment.built.entities = .ok entities
        ∧ d' = { d with entities } ∧ p = p' := by
  simp only [mergeFragmentEntities, gives_bind, gives_get, gives_ofExcept, gives_set]
  constructor
  · rintro ⟨_, _, _, ⟨rfl, rfl, rfl⟩, s, _, _, ⟨merged, rfl, rfl⟩, rfl, rfl⟩
    exact ⟨s, merged, rfl, rfl⟩
  · rintro ⟨s, merged, rfl, rfl⟩
    exact ⟨d, d, p, ⟨rfl, rfl, rfl⟩, s, d, p, ⟨merged, rfl, rfl⟩, rfl, rfl⟩

theorem gives_freshField {id : FieldId} :
    freshField.Gives d p id d' p'
      ↔ id = ⟨d.entities.source.id, d.nextField⟩ ∧ d' = { d with nextField := d.nextField + 1 }
        ∧ p = p' := by
  simp only [freshField, gives_bind, gives_get, gives_set, gives_pure]
  constructor
  · rintro ⟨_, _, _, ⟨rfl, rfl, rfl⟩, _, _, _, ⟨rfl, rfl⟩, rfl, rfl, rfl⟩
    exact ⟨rfl, rfl, rfl⟩
  · rintro ⟨rfl, rfl, rfl⟩
    exact ⟨d, d, p, ⟨rfl, rfl, rfl⟩, (), _, p, ⟨rfl, rfl⟩, rfl, rfl, rfl⟩

end Walk

/-! ## References -/

namespace Walk

/-- Fragments are recorded by their names, so that a map which keeps these may come before or after. -/
theorem foldl_addReference_map {g : NamedFragment → NamedFragment} (named : ∀ f, (g f).name = f.name)
    (added referenced : List NamedFragment) :
    (added.map g).foldl addReference (referenced.map g) = (added.foldl addReference referenced).map g := by
  induction added generalizing referenced with
  | nil => rfl
  | cons f rest ih =>
      have known : (referenced.map g).any (fun h => h.name == (g f).name)
          = referenced.any fun h => h.name == f.name := by
        rw [List.any_map]
        simp only [Function.comp_def, named]
      have first : addReference (referenced.map g) (g f) = (addReference referenced f).map g := by
        rw [addReference, addReference, known]
        split
        · rfl
        · rw [List.map_append, List.map_singleton]
      rw [List.map_cons, List.foldl_cons, List.foldl_cons, first, ih]

end Walk

/-! ## Fields that are selected -/

/-- A field is selected on `u` somewhere in selections on `t`. -/
inductive Selected : Name → List Selection → Name → FieldSelection → Prop
  | here {t : Name} {ss : List Selection} {f : FieldSelection} (mem : .field f ∈ ss) :
      Selected t ss t f
  | field {t u : Name} {ss : List Selection} {f g : FieldSelection} (mem : .field g ∈ ss)
      (inner : Selected g.type.innerName g.selections u f) : Selected t ss u f
  | inline {t u : Name} {ss selections : List Selection} {condition : Option Name}
      {directives : List Directive} {f : FieldSelection}
      (mem : .inlineFragment condition directives selections ∈ ss)
      (inner : Selected (condition.getD t) selections u f) : Selected t ss u f

theorem Selected.mono {t u : Name} {ss ts : List Selection} {f : FieldSelection}
    (h : Selected t ss u f) (sub : ∀ s ∈ ss, s ∈ ts) : Selected t ts u f := by
  cases h with
  | here mem => exact .here (sub _ mem)
  | field mem inner => exact .field (sub _ mem) inner
  | inline mem inner => exact .inline (sub _ mem) inner

/-! ## Progress, whether a step succeeds or fails -/

section Keeps

variable {R : Progress → Progress → Prop}

/-- Progress before and after a step of a session is related. -/
def Build.Keeps (R : Progress → Progress → Prop) (b : Build α) : Prop :=
  ∀ p, R p (b.result p).2

/-- Progress before and after a step of a walk is related. -/
def Walk.Keeps (R : Progress → Progress → Prop) (w : Walk α) : Prop :=
  ∀ d p, R p (w.result d p).2

/-- A relation that steps can keep one after the other. -/
structure Progress.Order (R : Progress → Progress → Prop) : Prop where
  refl : ∀ p, R p p
  trans : ∀ {p q r}, R p q → R q r → R p r

theorem Progress.Order.and {S : Progress → Progress → Prop} (first : Progress.Order R)
    (second : Progress.Order S) : Progress.Order fun p q => R p q ∧ S p q where
  refl p := ⟨first.refl p, second.refl p⟩
  trans h₁ h₂ := ⟨first.trans h₁.1 h₂.1, second.trans h₁.2 h₂.2⟩

theorem Build.Keeps.bind (order : Progress.Order R) {b : Build α} {k : α → Build β}
    (first : b.Keeps R) (then_ : ∀ a, (k a).Keeps R) : (b >>= k).Keeps R := by
  intro p
  have before := first p
  rw [result_bind]
  rcases h : b.result p with ⟨e | a, p'⟩ <;> rw [h] at before
  · exact before
  · exact order.trans before (then_ a p')

theorem Build.keeps_pure (order : Progress.Order R) (a : α) : (pure a : Build α).Keeps R :=
  fun p => order.refl p

theorem Build.keeps_mapM (order : Progress.Order R) {f : α → Build β} (as : List α)
    (keeps : ∀ a ∈ as, (f a).Keeps R) : (as.mapM f).Keeps R := by
  rw [← List.mapM'_eq_mapM]
  induction as with
  | nil => exact keeps_pure order _
  | cons a as ih =>
      obtain ⟨first, others⟩ := List.forall_mem_cons.mp keeps
      rw [List.mapM'_cons]
      exact .bind order first fun _ => .bind order (ih others) fun _ => keeps_pure order _

/-- What steps one after the other give, each of them gives by itself, somewhere on the way. -/
theorem Build.gives_mapM (order : Progress.Order R) {f : α → Build β} (as : List α)
    (keeps : ∀ a ∈ as, (f a).Keeps R) {p p' : Progress} {bs : List β}
    (gives : (as.mapM f).Gives p bs p') :
    ∀ b ∈ bs, ∃ a ∈ as, ∃ q q', R p q ∧ (f a).Gives q b q' ∧ R q' p' := by
  induction as generalizing p bs with
  | nil =>
      obtain ⟨rfl, -⟩ := gives_pure.mp gives
      exact nofun
  | cons a as ih =>
      obtain ⟨first, others⟩ := List.forall_mem_cons.mp keeps
      rw [← List.mapM'_eq_mapM, List.mapM'_cons, List.mapM'_eq_mapM] at gives
      obtain ⟨b, p₁, here, rest⟩ := gives_bind.mp gives
      obtain ⟨bs, p₂, later, done⟩ := gives_bind.mp rest
      obtain ⟨rfl, rfl⟩ := gives_pure.mp done
      have kept := first p
      rw [show _ = _ from here] at kept
      have keptLater := keeps_mapM order as others p₁
      rw [show _ = _ from later] at keptLater
      refine List.forall_mem_cons.mpr
        ⟨⟨a, List.mem_cons_self, p, p₁, order.refl p, here, keptLater⟩, fun c mem => ?_⟩
      obtain ⟨a', memA, q, q', before, gives, after⟩ := ih others later c mem
      exact ⟨a', List.mem_cons_of_mem _ memA, q, q', order.trans kept before, gives, after⟩

namespace Walk

theorem Keeps.bind (order : Progress.Order R) {w : Walk α} {k : α → Walk β} (first : w.Keeps R)
    (then_ : ∀ a, (k a).Keeps R) : (w >>= k).Keeps R := by
  intro d p
  have before := first d p
  rw [result_bind]
  rcases h : w.result d p with ⟨e | ⟨a, d'⟩, p'⟩ <;> rw [h] at before
  · exact before
  · exact order.trans before (then_ a d' p')

theorem keeps_pure (order : Progress.Order R) (a : α) : (pure a : Walk α).Keeps R :=
  fun _ p => order.refl p

theorem keeps_ofExcept (order : Progress.Order R) (e : Except BuildError α) :
    (ofExcept e).Keeps R := by
  intro d p
  cases e <;> exact order.refl p

theorem keeps_ofBuild {b : Build α} (h : b.Keeps R) : (ofBuild b).Keeps R := by
  intro d p
  have kept := h p
  change R p (Build.result (b >>= fun a => pure (a, d)) p).2
  rw [Build.result_bind]
  rcases r : b.result p with ⟨e | a, p'⟩ <;> rw [r] at kept <;> exact kept

theorem keeps_get (order : Progress.Order R) : (getThe Draft : Walk Draft).Keeps R :=
  fun _ p => order.refl p

theorem keeps_set (order : Progress.Order R) (d : Draft) : (set d : Walk PUnit).Keeps R :=
  fun _ p => order.refl p

theorem keeps_modify (order : Progress.Order R) (f : Draft → Draft) :
    (modifyThe Draft f : Walk PUnit).Keeps R :=
  fun _ p => order.refl p

theorem keeps_modifyTree (order : Progress.Order R) (id : EntityId)
    (change : SelectionTree → SelectionTree) : (modifyTree id change).Keeps R :=
  .bind order (keeps_get order) fun _ =>
    .bind order (keeps_ofExcept order _) fun _ => keeps_set order _

theorem keeps_entityForField (order : Progress.Order R) (enclosing : EntityId)
    (component : PathComponent) : (entityForField enclosing component).Keeps R :=
  .bind order (keeps_get order) fun _ =>
    .bind order (keeps_ofExcept order _) fun _ =>
      .bind order (keeps_set order _) fun _ => keeps_pure order _

theorem keeps_mergeFragmentEntities (order : Progress.Order R) (site : TypeInfo) (guard : Inclusion)
    (fragment : NamedFragment) : (mergeFragmentEntities site guard fragment).Keeps R :=
  .bind order (keeps_get order) fun _ =>
    .bind order (keeps_ofExcept order _) fun _ => keeps_set order _

theorem keeps_freshField (order : Progress.Order R) : freshField.Keeps R :=
  .bind order (keeps_get order) fun _ => .bind order (keeps_set order _) fun _ => keeps_pure order _

theorem keeps_spread (order : Progress.Order R) {view : SchemaView}
    {fragmentNamed : Name → Build NamedFragment} (lookUp : ∀ name, (fragmentNamed name).Keeps R)
    (info : TypeInfo) (direct : DirectSelections) (name : Name) (directives : List Directive) :
    (spread view fragmentNamed info direct name directives).Keeps R := by
  refine .bind order (keeps_ofExcept order _) ?_
  rintro (_ | inclusion)
  · exact keeps_pure order _
  · refine .bind order (keeps_ofExcept order _) fun deferral => ?_
    refine .bind order (keeps_ofBuild (lookUp name)) fun fragment => ?_
    refine .bind order (keeps_modify order _) fun _ => ?_
    refine .bind order (keeps_modify order _) fun _ => ?_
    refine .bind order (keeps_mergeFragmentEntities order _ _ _) fun _ => ?_
    exact .bind order (keeps_modifyTree order _ _) fun _ => keeps_ofExcept order _

mutual

theorem keeps_one (order : Progress.Order R) {view : SchemaView}
    {fragmentNamed : Name → Build NamedFragment} (lookUp : ∀ name, (fragmentNamed name).Keeps R)
    (info : TypeInfo) (direct : DirectSelections) : ∀ s : Selection,
      (∀ t f, Selected info.parentType [s] t f → (Build.collect t f.name f.type).Keeps R) →
      (one view fragmentNamed info direct s).Keeps R
  | .field ⟨label, definition, arguments, directives, selections⟩, collect => by
      rw [one]
      refine .bind order (keeps_ofExcept order _) ?_
      rintro (_ | inclusion)
      · exact keeps_pure order _
      · have here := List.mem_singleton_self
          (Selection.field ⟨label, definition, arguments, directives, selections⟩)
        refine .bind order (keeps_ofBuild (collect _ _ (.here here))) fun _ => ?_
        refine .bind order (keeps_modifyTree order _ _) fun _ => ?_
        refine .bind order (keeps_ofExcept order _) ?_
        rintro (_ | _)
        · exact keeps_ofExcept order _
        · refine .bind order (keeps_entityForField order _ _) fun entity => ?_
          refine .bind order (keeps_all order lookUp _ _ selections fun t f within =>
            collect t f (.field here within)) fun below => ?_
          exact .bind order (keeps_freshField order) fun id => keeps_ofExcept order _
  | .inlineFragment condition directives selections, collect => by
      have inside : ∀ (inner : TypeInfo), inner.parentType = condition.getD info.parentType →
          ∀ t f, Selected inner.parentType selections t f →
            (Build.collect t f.name f.type).Keeps R := fun inner type t f within =>
        collect t f (.inline (List.mem_singleton_self _) (type ▸ within))
      rw [one]
      refine .bind order (keeps_ofExcept order _) fun verdict => ?_
      cases verdict.scope? with
      | none => exact keeps_pure order _
      | some conditions =>
          refine .bind order (keeps_ofExcept order _) fun deferral => ?_
          refine .bind order (keeps_modify order _) fun _ => ?_
          dsimp only
          split
          · rename_i flattens
            simp only [Bool.and_eq_true, beq_iff_eq] at flattens
            exact keeps_all order lookUp _ _ selections (inside _ flattens.1.1.symm)
          · refine .bind order (keeps_all order lookUp _ _ selections (inside _ ?_)) fun below =>
              keeps_ofExcept order _
            simp [TypeInfo.parentType, TypeInfo.enter, ScopePath.typeOn, ScopePath.last?,
              ScopePath.append]
  | .fragmentSpread name directives, _ => by
      rw [one]
      exact keeps_spread order lookUp info direct name directives

/-- A walk keeps what its look-up of fragments keeps, and the collecting of the fields it selects. -/
theorem keeps_all (order : Progress.Order R) {view : SchemaView}
    {fragmentNamed : Name → Build NamedFragment} (lookUp : ∀ name, (fragmentNamed name).Keeps R)
    (info : TypeInfo) (direct : DirectSelections) : ∀ ss : List Selection,
      (∀ t f, Selected info.parentType ss t f → (Build.collect t f.name f.type).Keeps R) →
      (all view fragmentNamed info direct ss).Keeps R
  | [], _ => by
      rw [all]
      exact keeps_pure order _
  | s :: ss, collect => by
      rw [all]
      refine .bind order (keeps_one order lookUp info direct s fun t f within => ?_) fun direct =>
        keeps_all order lookUp info direct ss fun t f within => ?_
      · exact collect t f (within.mono (by simp))
      · exact collect t f (within.mono fun _ => List.mem_cons_of_mem _)

end

end Walk
end Keeps
end SelectionGraph
