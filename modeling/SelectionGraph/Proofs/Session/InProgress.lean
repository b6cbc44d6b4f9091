import SelectionGraph.Proofs.Session.Cycles
import SelectionGraph.Proofs.Session.History

/-!
# InProgress — sessions that keep the fragments in progress themselves

A fragment is built while others are, and which ones is handed down to it.  Here a session keeps
them: a fragment is noted before its selections are walked, taken back after that, whether the walk
succeeds or fails, and whether a spread leads in a circle is read off what is noted.

* `Tracked`, `Tracking` — progress with the fragments in progress, and steps that may change both;
* `Tracking.step`, `Tracking.fragmentNamed` — the building of a fragment in such a session;
* `Restores`            — a step does what another does that knows the fragments in progress, and
  leaves them as they were;
* `Tracking.restores_fragmentNamed` — the building of fragments does;
* `Tracked.after_eq`    — so between calls nothing is in progress, and the answers are the same.
-/

namespace SelectionGraph

variable {α β : Type}

/-! ## Steps -/

/-- The progress of a session, and the fragments that are being built, outermost first. -/
structure Tracked where
  progress : Progress
  inProgress : List Name

/-- A step of a session that keeps the fragments in progress. -/
abbrev Tracking (α : Type) := ExceptT BuildError (StateM Tracked) α

/-- A step of a walk in such a session. -/
abbrev TrackingWalk (α : Type) := StateT Draft (ExceptT BuildError (StateM Tracked)) α

namespace Tracking

def result (t : Tracking α) (s : Tracked) : Except BuildError α × Tracked :=
  StateT.run (ExceptT.run t) s

/-- A step that has nothing to do with the fragments in progress. -/
def ofBuild (b : Build α) : Tracking α :=
  ExceptT.mk fun s => ((b.result s.progress).1, { s with progress := (b.result s.progress).2 })

/-- A fragment begins to be built. -/
def push (name : Name) : Tracking Unit :=
  modify fun s => { s with inProgress := s.inProgress ++ [name] }

/-- The last fragment that began to be built no longer is. -/
def pop : Tracking Unit :=
  modify fun s => { s with inProgress := s.inProgress.dropLast }

/-- A step whose failure is an answer like others. -/
def attempt (t : Tracking α) : Tracking (Except BuildError α) :=
  ExceptT.lift (ExceptT.run t)

/-- A step while a fragment is being built.  The fragment is taken back after a failure too. -/
def during (name : Name) (t : Tracking α) : Tracking α := do
  push name
  let answer ← attempt t
  pop
  ofBuild (Build.ofExcept answer)

end Tracking

/-- A step of a walk that has nothing to do with the fragments in progress. -/
def TrackingWalk.ofWalk (w : Walk α) : TrackingWalk α :=
  fun draft => Tracking.ofBuild (StateT.run w draft)

/-! ## The walk -/

namespace TrackingWalk

/-- The spread of a fragment, which is looked up in a session that keeps the fragments in
progress. -/
def spread (view : SchemaView) (fragmentNamed : Name → Tracking NamedFragment) (info : TypeInfo)
    (direct : DirectSelections) (name : Name) (directives : List Directive) :
    TrackingWalk DirectSelections := do
  match ← ofWalk (Walk.ofExcept (Inclusion.ofDirectives directives)) with
  | none => return direct
  | some inclusion =>
      let deferral ← ofWalk (Walk.ofExcept (Deferral.ofDirectives directives))
      let fragment ← StateT.lift (fragmentNamed name)
      ofWalk do
        Walk.recordReference fragment
        Walk.noteDeferred (deferral.isDeferred || fragment.built.containsDeferred)
        let site := Walk.spreadSite view info fragment.definition.typeCondition
        Walk.mergeFragmentEntities site inclusion fragment
        Walk.modifyTree info.entity fun t =>
          t.insertFragment info.scopePath fragment.name inclusion
        Walk.ofExcept (Walk.addSpread info direct ⟨fragment.handle, site, inclusion, deferral⟩)

mutual

/-- Walks a selection of the set at `info`. -/
def one (view : SchemaView) (fragmentNamed : Name → Tracking NamedFragment) (info : TypeInfo)
    (direct : DirectSelections) : Selection → TrackingWalk DirectSelections
  | .field ⟨label, definition, arguments, directives, selections⟩ => do
      let node : FieldSelection := ⟨label, definition, arguments, directives, selections⟩
      match ← ofWalk (Walk.ofExcept (Inclusion.ofDirectives directives)) with
      | none => return direct
      | some inclusion =>
          ofWalk (Walk.ofBuild (Build.collect info.parentType node.name node.type))
          ofWalk (Walk.modifyTree info.entity fun t =>
            t.insertField info.scopePath ⟨node.responseKey, node.name, node.type, inclusion⟩)
          let fieldType := node.type.innerName
          if ← ofWalk (Walk.ofExcept (view.isComposite fieldType)) then
            let entity ← ofWalk (Walk.entityForField info.entity ⟨node.responseKey, node.type⟩)
            let inner : TypeInfo := ⟨entity, fieldType, .root, view.isRootFieldType fieldType⟩
            let below ← all view fragmentNamed inner .empty selections
            let id ← ofWalk Walk.freshField
            ofWalk (Walk.ofExcept (direct.addField (.entity
              ⟨id, node.responseKey, node.type, some node, inclusion, ⟨inner, below⟩⟩)))
          else ofWalk (Walk.ofExcept (direct.addField (.scalar ⟨node, inclusion⟩)))
  | .inlineFragment condition directives selections => do
      match (← ofWalk (Walk.ofExcept (Verdict.ofDirectives directives))).scope? with
      | none => return direct
      | some conditions =>
          let deferral ← ofWalk (Walk.ofExcept (Deferral.ofDirectives directives))
          ofWalk (Walk.noteDeferred deferral.isDeferred)
          let type := condition.getD info.parentType
          if type == info.parentType && conditions.isNone && !deferral.isDeferred then
            all view fragmentNamed info direct selections
          else
            let inner := info.enter ⟨type, conditions⟩ (view.isRootFieldType type)
            let below ← all view fragmentNamed inner .empty selections
            ofWalk (Walk.ofExcept (direct.addInline ⟨⟨inner, below⟩, deferral⟩))
  | .fragmentSpread name directives => spread view fragmentNamed info direct name directives

/-- Walks selections of the set at `info`, in order. -/
def all (view : SchemaView) (fragmentNamed : Name → Tracking NamedFragment) (info : TypeInfo)
    (direct : DirectSelections) : List Selection → TrackingWalk DirectSelections
  | [] => return direct
  | s :: ss => do
      all view fragmentNamed info (← one view fragmentNamed info direct s) ss

end

end TrackingWalk

namespace Tracking

/-- The whole walk of a definition. -/
def selections (view : SchemaView) (fragmentNamed : Name → Tracking NamedFragment)
    (definition : ExecutableDefinition) (rootName : Name) (ss : List Selection) :
    Tracking BuiltSelections := do
  let source : SourceDefinition := ⟨← ofBuild Build.freshDefinition, definition⟩
  let (direct, draft) ←
    (TrackingWalk.all view fragmentNamed (source.info view) .empty ss).run (.start source)
  return source.built view rootName direct draft

/-! ## Fragments -/

/-- One step of the building of a fragment, in a session that keeps the fragments in progress. -/
def step (view : SchemaView) (document : Document) (nested : Name → Tracking NamedFragment)
    (name : Name) : Tracking NamedFragment := do
  let s ← get
  match s.progress.fragments.find? fun f => f.name == name with
  | some built => return built
  | none =>
      if name ∈ s.inProgress then throw (.cyclicFragment name (Build.cycle s.inProgress name))
      else
        match document.fragment? name with
        | none => throw (.unknownFragment name)
        | some f =>
            let built ← during name
              (selections view nested (.fragment f.definition) name f.definition.selections)
            let fragment : NamedFragment :=
              ⟨f.definition, built, Build.sourceOf FragmentDefinition.text f⟩
            ofBuild (modify fun progress =>
              { progress with fragments := progress.fragments ++ [fragment] })
            return fragment

/-- The building of a fragment, by finitely many steps.  What happens after them is up to `rest`. -/
def fragmentNamed (view : SchemaView) (document : Document)
    (rest : Name → Tracking NamedFragment) : Nat → Name → Tracking NamedFragment
  | 0 => rest
  | depth + 1 => step view document (fragmentNamed view document rest depth)

end Tracking

/-! ## What is in progress is restored -/

/-- A step does what another step does that knows the fragments in progress, and leaves them as they
were, whether it succeeds or fails. -/
def Restores (inProgress : List Name) (t : Tracking α) (b : Build α) : Prop :=
  ∀ p, t.result ⟨p, inProgress⟩ = ((b.result p).1, ⟨(b.result p).2, inProgress⟩)

namespace Tracking

theorem result_bind (t : Tracking α) (k : α → Tracking β) (s : Tracked) :
    (t >>= k).result s
      = match t.result s with
        | (.ok a, s') => (k a).result s'
        | (.error e, s') => (.error e, s') := by
  unfold result ExceptT.run StateT.run
  simp only [bind, ExceptT.bind, ExceptT.mk, StateT.bind]
  rcases t s with ⟨e | a, s'⟩ <;> rfl

end Tracking

namespace Restores

variable {inProgress : List Name} {t : Tracking α} {b : Build α}

theorem bind (first : Restores inProgress t b) {k : α → Tracking β} {k' : α → Build β}
    (then_ : ∀ a, Restores inProgress (k a) (k' a)) :
    Restores inProgress (t >>= k) (b >>= k') := by
  intro p
  rw [Tracking.result_bind, first p, Build.result_bind]
  rcases b.result p with ⟨e | a, p'⟩
  · rfl
  · exact then_ a p'

theorem pure (a : α) : Restores inProgress (Pure.pure a) (Pure.pure a) :=
  fun _ => rfl

theorem throw (e : BuildError) :
    Restores inProgress (MonadExcept.throw e : Tracking α) (MonadExcept.throw e) :=
  fun _ => rfl

theorem ofBuild (b : Build α) : Restores inProgress (Tracking.ofBuild b) b :=
  fun _ => rfl

end Restores

/-- The same of a step of a walk. -/
def WalkRestores (inProgress : List Name) (t : TrackingWalk α) (w : Walk α) : Prop :=
  ∀ draft, Restores inProgress (StateT.run t draft) (StateT.run w draft)

namespace WalkRestores

variable {inProgress : List Name} {t : TrackingWalk α} {w : Walk α}

theorem bind (first : WalkRestores inProgress t w) {k : α → TrackingWalk β} {k' : α → Walk β}
    (then_ : ∀ a, WalkRestores inProgress (k a) (k' a)) :
    WalkRestores inProgress (t >>= k) (w >>= k') :=
  fun draft => (first draft).bind fun (a, draft') => then_ a draft'

theorem pure (a : α) : WalkRestores inProgress (Pure.pure a) (Pure.pure a) :=
  fun draft => Restores.pure (a, draft)

theorem ofWalk (w : Walk α) : WalkRestores inProgress (TrackingWalk.ofWalk w) w :=
  fun draft => Restores.ofBuild (StateT.run w draft)

theorem lift {t : Tracking α} {b : Build α} (h : Restores inProgress t b) :
    WalkRestores inProgress (StateT.lift t) (Walk.ofBuild b) :=
  fun draft => h.bind fun a => Restores.pure (a, draft)

end WalkRestores

namespace TrackingWalk

variable {view : SchemaView} {inProgress : List Name} {tracked : Name → Tracking NamedFragment}
  {fragmentNamed : Name → Build NamedFragment}

theorem restores_spread (lookUp : ∀ name, Restores inProgress (tracked name) (fragmentNamed name))
    (info : TypeInfo) (direct : DirectSelections) (name : Name) (directives : List Directive) :
    WalkRestores inProgress (spread view tracked info direct name directives)
      (Walk.spread view fragmentNamed info direct name directives) := by
  refine (WalkRestores.ofWalk _).bind ?_
  rintro (_ | inclusion)
  · exact .pure direct
  · refine (WalkRestores.ofWalk _).bind fun deferral => ?_
    exact (WalkRestores.lift (lookUp name)).bind fun fragment => .ofWalk _

mutual

theorem restores_one (lookUp : ∀ name, Restores inProgress (tracked name) (fragmentNamed name))
    (info : TypeInfo) (direct : DirectSelections) : ∀ s : Selection,
    WalkRestores inProgress (one view tracked info direct s)
      (Walk.one view fragmentNamed info direct s)
  | .field ⟨label, definition, arguments, directives, selections⟩ => by
      rw [one, Walk.one]
      refine (WalkRestores.ofWalk _).bind ?_
      rintro (_ | inclusion)
      · exact .pure direct
      · refine (WalkRestores.ofWalk _).bind fun _ => (WalkRestores.ofWalk _).bind fun _ => ?_
        refine (WalkRestores.ofWalk _).bind ?_
        rintro (_ | _)
        · exact .ofWalk _
        · refine (WalkRestores.ofWalk _).bind fun entity => ?_
          refine (restores_all lookUp _ _ selections).bind fun below => ?_
          exact (WalkRestores.ofWalk _).bind fun id => .ofWalk _
  | .inlineFragment condition directives selections => by
      rw [one, Walk.one]
      refine (WalkRestores.ofWalk _).bind fun verdict => ?_
      cases verdict.scope? with
      | none => exact .pure direct
      | some conditions =>
          refine (WalkRestores.ofWalk _).bind fun deferral => ?_
          refine (WalkRestores.ofWalk _).bind fun _ => ?_
          dsimp only
          split
          · exact restores_all lookUp _ _ selections
          · exact (restores_all lookUp _ _ selections).bind fun below => .ofWalk _
  | .fragmentSpread name directives => by
      rw [one, Walk.one]
      exact restores_spread lookUp info direct name directives

theorem restores_all (lookUp : ∀ name, Restores inProgress (tracked name) (fragmentNamed name))
    (info : TypeInfo) (direct : DirectSelections) : ∀ ss : List Selection,
    WalkRestores inProgress (all view tracked info direct ss)
      (Walk.all view fragmentNamed info direct ss)
  | [] => by
      rw [all, Walk.all]
      exact .pure direct
  | s :: ss => by
      rw [all, Walk.all]
      exact (restores_one lookUp info direct s).bind fun direct =>
        restores_all lookUp info direct ss

end

end TrackingWalk

namespace Tracking

variable {view : SchemaView} {document : Document} {inProgress : List Name}

theorem restores_selections {tracked : Name → Tracking NamedFragment}
    {fragmentNamed : Name → Build NamedFragment}
    (lookUp : ∀ name, Restores inProgress (tracked name) (fragmentNamed name))
    (definition : ExecutableDefinition) (rootName : Name) (ss : List Selection) :
    Restores inProgress (selections view tracked definition rootName ss)
      (Build.selections view fragmentNamed definition rootName ss) :=
  (Restores.ofBuild _).bind fun _ =>
    (TrackingWalk.restores_all lookUp _ _ ss _).bind fun (_, _) => .pure _

/-- What is noted for a step is taken back after it. -/
theorem restores_during {t : Tracking α} {b : Build α} {name : Name}
    (h : Restores (inProgress ++ [name]) t b) : Restores inProgress (during name t) b := by
  intro p
  -- A failure is an answer here, so what follows it happens on both branches.
  have attempted : (attempt t).result ⟨p, inProgress ++ [name]⟩
      = (.ok (b.result p).1, ⟨(b.result p).2, inProgress ++ [name]⟩) :=
    congrArg (fun r : Except BuildError α × Tracked => (Except.ok r.1, r.2)) (h p)
  have pushed : (push name).result ⟨p, inProgress⟩ = (.ok (), ⟨p, inProgress ++ [name]⟩) := rfl
  have popped : ∀ q, pop.result ⟨q, inProgress ++ [name]⟩ = (.ok (), ⟨q, inProgress⟩) := by
    intro q
    change (Except.ok (), Tracked.mk q (inProgress ++ [name]).dropLast) = _
    rw [List.dropLast_concat]
  rw [during, result_bind, pushed]
  dsimp only
  rw [result_bind, attempted]
  dsimp only
  rw [result_bind, popped]
  rcases b.result p with ⟨e | a, p'⟩ <;> rfl

variable {rest : Name → Tracking NamedFragment}

/-- The step reads off what is noted just what the building of a fragment was told. -/
theorem restores_step {nested : List Name → Name → Build NamedFragment} {name : Name}
    {tracked : Name → Tracking NamedFragment}
    (lookUp : ∀ f, name ∉ inProgress → document.fragment? name = some f →
      ∀ spread, Restores (inProgress ++ [name]) (tracked spread) (nested (inProgress ++ [name]) spread)) :
    Restores inProgress (step view document tracked name)
      (Build.fragmentStep view document nested inProgress name) := by
  intro p
  -- Both steps begin by reading the session, and go on with what they read.
  have look : ∀ {k : Tracked → Tracking NamedFragment} {k' : Progress → Build NamedFragment},
      Restores inProgress (k ⟨p, inProgress⟩) (k' p) →
      (get >>= k).result ⟨p, inProgress⟩
        = (((get >>= k').result p).1, ⟨((get >>= k').result p).2, inProgress⟩) := fun h => h p
  refine look ?_
  dsimp only
  cases p.fragments.find? fun f => f.name == name with
  | some built => exact .pure built
  | none =>
      dsimp only
      by_cases active : name ∈ inProgress
      · rw [if_pos active, if_pos active]
        exact .throw _
      · rw [if_neg active, if_neg active]
        cases defined : document.fragment? name with
        | none => exact .throw _
        | some f =>
            have walk := @restores_selections view (inProgress ++ [name]) tracked
              (nested (inProgress ++ [name])) (lookUp f active defined) (.fragment f.definition) name
              f.definition.selections
            have inside := restores_during walk
            exact inside.bind fun built => (Restores.ofBuild _).bind fun _ => .pure _

/-- With enough steps, the fragments that a session keeps as in progress are those that the building
of fragments hands down, and they are restored.  The induction is on the steps: each fragment that
begins to be built leaves fewer that wait. -/
theorem restores_fragmentNamed (depth : Nat) : ∀ (inProgress : List Name) (name : Name),
    Build.waiting document inProgress < depth →
      Restores inProgress (fragmentNamed view document rest depth name)
        (Build.fragmentNamed view document inProgress name) := by
  induction depth with
  | zero =>
      intro inProgress name short
      exact absurd short (Nat.not_lt_zero _)
  | succ depth ih =>
      intro inProgress name short
      rw [fragmentNamed, Build.fragmentNamed_eq_step]
      refine restores_step fun f active defined spread => ih _ spread ?_
      have fewer := Build.waiting_lt active defined
      omega

theorem restores_outer (name : Name) :
    Restores [] (fragmentNamed view document rest (document.fragments.length + 1) name)
      (Build.fragmentNamed view document [] name) := by
  refine restores_fragmentNamed _ [] name ?_
  rw [Build.waiting_nil]
  exact Nat.lt_succ_self _

/-! ## Sessions -/

/-- The building of an operation, in a session that keeps the fragments in progress. -/
def operation (view : SchemaView) (document : Document) (rest : Name → Tracking NamedFragment)
    (o : Sourced OperationDefinition) : Tracking Operation := do
  let built ← selections view (fragmentNamed view document rest (document.fragments.length + 1))
    (.operation o.definition) Build.operationRoot o.definition.selections
  return ⟨o.definition, built, Build.sourceOf OperationDefinition.text o⟩

theorem restores_operation (o : Sourced OperationDefinition) :
    Restores [] (operation view document rest o) (Build.operation view document o) :=
  (restores_selections restores_outer _ _ _).bind fun _ => .pure _

theorem restores_operations (os : List (Sourced OperationDefinition)) :
    Restores [] (os.mapM (operation view document rest))
      (os.mapM (Build.operation view document)) := by
  rw [← List.mapM'_eq_mapM, ← List.mapM'_eq_mapM]
  induction os with
  | nil => exact .pure []
  | cons o os ih =>
      rw [List.mapM'_cons, List.mapM'_cons]
      exact (restores_operation o).bind fun _ => ih.bind fun _ => .pure _

end Tracking

namespace Tracked

/-- A call of a session that keeps the fragments in progress. -/
def call (view : SchemaView) (document : Document) (rest : Name → Tracking NamedFragment)
    (s : Tracked) : Call → Answer × Tracked
  | .operation o => ((Tracking.operation view document rest o).result s).map Answer.operation id
  | .operationNamed name =>
      match document.operation? name with
      | some o => ((Tracking.operation view document rest o).result s).map Answer.operation id
      | none => (.operation (.error (.unknownOperation name)), s)
  | .all =>
      ((document.operations.mapM (Tracking.operation view document rest)).result s).map
        Answer.operations id
  | .fragment name =>
      ((Tracking.fragmentNamed view document rest (document.fragments.length + 1) name).result s).map
        Answer.fragment id

/-- Such a session after some calls, whether they succeeded or failed. -/
def after (view : SchemaView) (document : Document) (rest : Name → Tracking NamedFragment)
    (s : Tracked) (calls : List Call) : Tracked :=
  calls.foldl (fun s c => (s.call view document rest c).2) s

variable {rest : Name → Tracking NamedFragment}

/-- A call that finds nothing in progress leaves nothing in progress. -/
theorem call_eq (s : Session) (c : Call) :
    call s.view s.document rest ⟨s.progress, []⟩ c
      = ((s.call c).1, ⟨(s.call c).2.progress, []⟩) := by
  have same : ∀ {α : Type} {t : Tracking α} {b : Build α} (answer : Except BuildError α → Answer),
      Restores [] t b → (t.result ⟨s.progress, []⟩).map answer id
        = (answer (b.result s.progress).1, ⟨(b.result s.progress).2, []⟩) := by
    intro α t b answer restores
    rw [restores s.progress]
    rfl
  cases c with
  | operation o => exact same _ (Tracking.restores_operation o)
  | operationNamed name =>
      rw [call, Session.call, Session.buildOperationNamed]
      cases s.document.operation? name with
      | some o => exact same _ (Tracking.restores_operation o)
      | none => rfl
  | all => exact same _ (Tracking.restores_operations _)
  | fragment name =>
      have outer := @Tracking.restores_outer s.view s.document rest name
      exact (same Answer.fragment outer :)

/-- Whatever was asked for, nothing is in progress between calls. -/
theorem after_eq (calls : List Call) : ∀ s : Session,
    after s.view s.document rest ⟨s.progress, []⟩ calls = ⟨(s.after calls).progress, []⟩ := by
  induction calls with
  | nil => exact fun s => rfl
  | cons c calls ih =>
      intro s
      obtain ⟨view, document⟩ := s.call_same c
      have later := ih (s.call c).2
      rw [view, document] at later
      rw [after, List.foldl_cons, call_eq]
      exact later

end Tracked
end SelectionGraph
