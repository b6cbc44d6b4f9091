import SelectionGraph.Proofs.Session.Collected
import SelectionGraph.Proofs.Session.History
import SelectionGraph.Proofs.Session.Split

/-!
# Splitting — what sessions build from split selections

Of two sessions, one has a document and the other the same document with selections split.  Asked for
the same, both succeed or both fail; they build the same up to the syntax that is kept, and collect the
same fields.

* `Build.Agree`               — two steps of sessions succeed alike, or fail both;
* `Build.agree_fragmentNamed` — so do look-ups of fragments, by recursion on those in progress;
* `Build.agree_operation`     — and operations;
* `Session.Alike`             — sessions that differ in splits and in syntax;
* `Session.Alike.call`, `Session.Alike.after` — they stay so after a call that succeeds, and after many;
* `splitting_selections_is_invisible` — so they answer alike.

Of two walks that fail, one may have come further than the other, and collected other fields.  So
progress is compared after calls that succeed.
-/

namespace SelectionGraph

variable {α β α' β' : Type}

/-! ## Definitions with split selections -/

namespace OperationDefinition.Split

variable {schema : Schema} {o o' : OperationDefinition}

theorem bare (h : Split schema o o') : o.bare = o'.bare := by
  obtain ⟨_, -, rfl⟩ := h
  rfl

theorem selections (h : Split schema o o') : SelectionGraph.Split schema o.selections o'.selections := by
  obtain ⟨_, split, rfl⟩ := h
  exact split

end OperationDefinition.Split

namespace FragmentDefinition.Split

variable {schema : Schema} {f f' : FragmentDefinition}

theorem bare (h : Split schema f f') : f.bare = f'.bare := by
  obtain ⟨_, -, rfl⟩ := h
  rfl

theorem selections (h : Split schema f f') : SelectionGraph.Split schema f.selections f'.selections := by
  obtain ⟨_, split, rfl⟩ := h
  exact split

end FragmentDefinition.Split

/-! ## Steps of sessions that agree -/

namespace Build

/-- What a step of a session succeeds with, if it does: its result and the progress after it. -/
def done (b : Build α) (p : Progress) : Option (α × Progress) :=
  match b.result p with
  | (.ok a, p') => some (a, p')
  | (.error _, _) => none

theorem done_bind (b : Build α) (k : α → Build β) (p : Progress) :
    (b >>= k).done p = (b.done p).bind fun r => (k r.1).done r.2 := by
  unfold done
  rw [result_bind]
  rcases b.result p with ⟨e | a, p'⟩ <;> rfl

/-- Results are related, and progress is alike. -/
def EndAlike (S : α → β → Prop) (r : α × Progress) (r' : β × Progress) : Prop :=
  S r.1 r'.1 ∧ r.2.bare = r'.2.bare

/-- Two steps, begun alike, succeed alike or fail both. -/
def Agree (S : α → β → Prop) (b : Build α) (b' : Build β) : Prop :=
  ∀ p p', p.bare = p'.bare → Option.Rel (EndAlike S) (b.done p) (b'.done p')

variable {S : α → β → Prop} {T : α' → β' → Prop}

theorem Agree.bind {b : Build α} {b' : Build β} {k : α → Build α'} {k' : β → Build β'}
    (first : Agree S b b') (then_ : ∀ a a', S a a' → Agree T (k a) (k' a')) :
    Agree T (b >>= k) (b' >>= k') := by
  intro p p' progress
  rw [done_bind, done_bind]
  exact rel_bind (first p p' progress) fun _ _ alike => then_ _ _ alike.1 _ _ alike.2

theorem agree_pure {a : α} {a' : β} (same : S a a') : Agree S (pure a) (pure a') :=
  fun _ _ progress => .some ⟨same, progress⟩

/-- Steps of sessions that agree do so in walks. -/
theorem Agree.ofBuild {b : Build α} {b' : Build β} (h : Agree S b b') :
    Walk.Agree S (Walk.ofBuild b) (Walk.ofBuild b') := by
  have lift : ∀ {γ : Type} (c : Build γ) (d : Draft) (p : Progress),
      (Walk.ofBuild c).done d p = (c.done p).map fun r => (r.1, d, r.2) := by
    intro γ c d p
    rw [Walk.done, Walk.result_ofBuild, done]
    rcases c.result p with ⟨e | a, p'⟩ <;> rfl
  intro d d' p p' drafts progress
  rw [lift, lift]
  exact rel_map (h p p' progress) fun _ _ alike => ⟨alike.1, drafts, alike.2⟩

/-! ## Definitions -/

variable {view : SchemaView} {lookUp lookUp' : Name → Build NamedFragment}

theorem done_selections (definition : ExecutableDefinition) (rootName : Name) (ss : List Selection)
    (p : Progress) :
    let source : SourceDefinition := ⟨⟨p.nextDefinition⟩, definition⟩
    (selections view lookUp definition rootName ss).done p
      = ((Walk.all view lookUp (source.info view) .empty ss).done (.start source)
          { p with nextDefinition := p.nextDefinition + 1 }).map fun r =>
            (source.built view rootName r.1 r.2.1, r.2.2) := by
  intro source
  rw [done, result_selections, Walk.done]
  rcases (Walk.all view lookUp (source.info view) .empty ss).result (.start source)
    { p with nextDefinition := p.nextDefinition + 1 } with ⟨e | ⟨direct, draft⟩, p'⟩ <;> rfl

theorem built_bare (source : SourceDefinition) (rootName : Name) (direct : DirectSelections)
    (draft : Draft) : (source.built view rootName direct draft).bare
      = source.bare.built view rootName direct.bare draft.bare := by
  rw [SourceDefinition.built, BuiltSelections.bare_mk, SourceDefinition.built, SourceDefinition.info,
    SourceDefinition.info, SourceDefinition.rootType_bare]
  rfl

/-- Definitions that differ in their selections come to the same, if the walks of these agree. -/
theorem agree_selections {definition definition' : ExecutableDefinition}
    (same : definition.bare = definition'.bare) (rootName : Name) {ss ss' : List Selection}
    (walks : Walk.WalksAgree view lookUp lookUp' ss ss') :
    Agree (fun b b' => b.bare = b'.bare) (selections view lookUp definition rootName ss)
      (selections view lookUp' definition' rootName ss') := by
  intro p p' progress
  let source : SourceDefinition := ⟨⟨p.nextDefinition⟩, definition⟩
  let source' : SourceDefinition := ⟨⟨p'.nextDefinition⟩, definition'⟩
  have next : p.bare.nextDefinition = p'.bare.nextDefinition :=
    congrArg Progress.nextDefinition progress
  have sources : source.bare = source'.bare :=
    congrArg₂ (fun number definition => (⟨⟨number⟩, definition⟩ : SourceDefinition)) next same
  -- Both walks begin at the same place: the type at the root does not depend on the selections.
  have types : source.rootType = source'.rootType := by
    rw [← SourceDefinition.rootType_bare, ← source'.rootType_bare, sources]
  have infos : source.info view = source'.info view := by
    rw [SourceDefinition.info, SourceDefinition.info, types]
  have drafts : (Draft.start source).bare = (Draft.start source').bare := by
    rw [← Draft.start_bare, ← Draft.start_bare source', sources]
  have begun : ({ p with nextDefinition := p.nextDefinition + 1 } : Progress).bare
      = ({ p' with nextDefinition := p'.nextDefinition + 1 } : Progress).bare :=
    congrArg (fun p : Progress => { p with nextDefinition := p.nextDefinition + 1 }) progress
  have walked := walks (source.info view) .empty .empty rfl _ _ _ _ drafts begun
  rw [done_selections, done_selections]
  change Option.Rel _ _ (((Walk.all view lookUp' (source'.info view) .empty ss').done _ _).map _)
  rw [← infos]
  refine rel_map walked fun r r' alike => ⟨?_, alike.2.2⟩
  change (source.built view rootName r.1 r.2.1).bare = (source'.built view rootName r'.1 r'.2.1).bare
  rw [built_bare, built_bare, alike.1, alike.2.1, sources]

/-! ## Fragments -/

variable {document document' : Document}

theorem find?_bare (fragments : List NamedFragment) (name : Name) :
    NamedFragment.find? (fragments.map NamedFragment.bare) name
      = (NamedFragment.find? fragments name).map NamedFragment.bare := by
  rw [NamedFragment.find?, List.find?_map]
  rfl

/-- A fragment that is finished, and the progress with it. -/
def finished (f : Sourced FragmentDefinition) (r : BuiltSelections × Progress) :
    NamedFragment × Progress :=
  let fragment : NamedFragment := ⟨f.definition, r.1, sourceOf FragmentDefinition.text f⟩
  (fragment, { r.2 with fragments := r.2.fragments ++ [fragment] })

theorem done_fragmentNamed (document : Document) (inProgress : List Name) (name : Name)
    (p : Progress) :
    (fragmentNamed view document inProgress name).done p
      = match NamedFragment.find? p.fragments name with
        | some built => some (built, p)
        | none =>
            if name ∈ inProgress then none
            else (document.fragment? name).bind fun f =>
              ((selections view (fragmentNamed view document (inProgress ++ [name]))
                (.fragment f.definition) name f.definition.selections).done p).map (finished f) := by
  rw [done, result_fragmentNamed]
  cases NamedFragment.find? p.fragments name with
  | some built => rfl
  | none =>
      dsimp only
      by_cases active : name ∈ inProgress
      · rw [if_pos active, if_pos active]
      rw [if_neg active, if_neg active]
      cases document.fragment? name with
      | none => rfl
      | some f =>
          rw [Option.bind_some, done]
          dsimp only
          rcases (selections view (fragmentNamed view document (inProgress ++ [name]))
            (.fragment f.definition) name f.definition.selections).result p with ⟨e | b, p'⟩ <;> rfl

/-- Look-ups of fragments find them among those that are built, and collect fields on the way. -/
theorem collectingLookUp_fragmentNamed (view : SchemaView) (document : Document)
    (inProgress : List Name) : Walk.CollectingLookUp (fragmentNamed view document inProgress) where
  keeps name p := ((fragmentNamed_spec view document inProgress name).1 p).1
  finds name := (fragmentNamed_spec view document inProgress name).2
  collects := by
    refine keeps_fragmentNamed Progress.keepsFields_order (fun _ _ _ => id) ?_ ?_ inProgress
    · exact fun f _ t g _ p parent name has => FieldCollector.has_collect.mpr (Or.inl has)
    · exact fun _ _ _ _ _ _ _ _ _ kept => kept

/-- Walks of split selections agree, where look-ups do that collect fields. -/
theorem walksAgree_of_split (collecting : Walk.CollectingLookUp lookUp)
    (lookUps : Walk.LookUpsAgree lookUp lookUp') {ss ts : List Selection}
    (h : Split view.schema ss ts) : Walk.WalksAgree view lookUp lookUp' ss ts :=
  (Walk.agree_split collecting (lookUps.trans lookUps.symm) h).trans (Walk.agree_all lookUps ts)

/-- Fragments with split selections are finished alike, where look-ups agree. -/
theorem agree_finished (collecting : Walk.CollectingLookUp lookUp)
    (lookUps : Walk.LookUpsAgree lookUp lookUp') {f f' : Sourced FragmentDefinition}
    (h : FragmentDefinition.Split view.schema f.definition f'.definition) (name : Name)
    {p p' : Progress} (progress : p.bare = p'.bare) :
    Option.Rel (EndAlike NamedFragment.SameBare)
      (((selections view lookUp (.fragment f.definition) name f.definition.selections).done p).map
        (finished f))
      (((selections view lookUp' (.fragment f'.definition) name f'.definition.selections).done p').map
        (finished f')) := by
  have built := @agree_selections _ _ _ (.fragment f.definition) (.fragment f'.definition)
    (congrArg ExecutableDefinition.fragment h.bare) name _ _
    (walksAgree_of_split collecting lookUps h.selections) p p' progress
  refine rel_map built fun r r' alike => ?_
  have same : (finished f r).1.bare = (finished f' r').1.bare :=
    congrArg₂ (fun definition built => (⟨definition, built, ""⟩ : NamedFragment)) h.bare alike.1
  have before : r.2.fragments.map NamedFragment.bare = r'.2.fragments.map NamedFragment.bare :=
    congrArg Progress.fragments alike.2
  have fragments : (finished f r).2.fragments.map NamedFragment.bare
      = (finished f' r').2.fragments.map NamedFragment.bare := by
    rw [finished, finished, List.map_append, List.map_append, before]
    exact congrArg (fun g => _ ++ [g]) same
  exact ⟨same, congrArg₂ (fun (p : Progress) fragments => { p with fragments }) alike.2 fragments⟩

/-- Look-ups of fragments agree in a document and in one with its selections split.  The recursion is
on the fragments in progress. -/
theorem agree_fragmentNamed (split : Document.Split view.schema document document')
    (inProgress : List Name) (name : Name) :
    Agree NamedFragment.SameBare (fragmentNamed view document inProgress name)
      (fragmentNamed view document' inProgress name) := by
  intro p p' progress
  -- A fragment that is built in one session is built in the other.
  have found : NamedFragment.find? (p.fragments.map NamedFragment.bare) name
      = NamedFragment.find? (p'.fragments.map NamedFragment.bare) name :=
    congrArg (fun p : Progress => NamedFragment.find? p.fragments name) progress
  rw [find?_bare, find?_bare] at found
  rw [done_fragmentNamed, done_fragmentNamed]
  cases built : NamedFragment.find? p.fragments name with
  | some g =>
      rw [built, Option.map_some, eq_comm, Option.map_eq_some_iff] at found
      obtain ⟨g', built', same⟩ := found
      rw [built']
      exact .some ⟨same.symm, progress⟩
  | none =>
      rw [built, Option.map_none, eq_comm, Option.map_eq_none_iff] at found
      rw [found]
      dsimp only
      by_cases active : name ∈ inProgress
      · rw [if_pos active, if_pos active]
        exact .none
      rw [if_neg active, if_neg active]
      refine rel_bind (rel_attach (split.fragment? name)) ?_
      rintro f f' ⟨definitions, defined, -⟩
      exact agree_finished (collectingLookUp_fragmentNamed view document _)
        (fun spread => (agree_fragmentNamed split (inProgress ++ [name]) spread).ofBuild)
        definitions name progress
termination_by waiting document inProgress
decreasing_by exact waiting_lt active defined

/-! ## Operations -/

/-- Operations with split selections come to the same. -/
theorem agree_operation (split : Document.Split view.schema document document')
    {o o' : Sourced OperationDefinition}
    (h : OperationDefinition.Split view.schema o.definition o'.definition) :
    Agree (fun b b' => b.bare = b'.bare) (operation view document o) (operation view document' o') := by
  have lookUps : Walk.LookUpsAgree (fragmentNamed view document []) (fragmentNamed view document' []) :=
    fun name => (agree_fragmentNamed split [] name).ofBuild
  have walks := walksAgree_of_split (collectingLookUp_fragmentNamed view document []) lookUps h.selections
  have built := @agree_selections _ _ _ (.operation o.definition) (.operation o'.definition)
    (congrArg ExecutableDefinition.operation h.bare) operationRoot _ _ walks
  refine built.bind fun b b' built => agree_pure ?_
  exact congrArg₂ (fun definition built => (⟨definition, built, ""⟩ : Operation)) h.bare built

/-- So do operations that are built one after the other.  The induction is on the operations. -/
theorem agree_operations (split : Document.Split view.schema document document')
    {os os' : List (Sourced OperationDefinition)}
    (related : List.Forall₂
      (fun o o' => OperationDefinition.Split view.schema o.definition o'.definition) os os') :
    Agree (fun bs bs' => bs.map Operation.bare = bs'.map Operation.bare)
      (os.mapM (operation view document)) (os'.mapM (operation view document')) := by
  rw [← List.mapM'_eq_mapM, ← List.mapM'_eq_mapM]
  induction related with
  | nil => exact agree_pure rfl
  | cons first _ ih =>
      rw [List.mapM'_cons, List.mapM'_cons]
      refine .bind (agree_operation split first) fun b b' same => ?_
      refine .bind ih fun bs bs' rest => agree_pure ?_
      exact congrArg₂ List.cons same rest

end Build

/-! ## Sessions -/

/-- What a session is asked for has its selections split, where it comes with selections. -/
inductive Call.Split (schema : Schema) : Call → Call → Prop
  | operation {o o' : Sourced OperationDefinition}
      (split : OperationDefinition.Split schema o.definition o'.definition) :
      Split schema (.operation o) (.operation o')
  | operationNamed (name : Option Name) : Split schema (.operationNamed name) (.operationNamed name)
  | all : Split schema .all .all
  | fragment (name : Name) : Split schema (.fragment name) (.fragment name)

/-- An answer up to texts, to the syntax that is kept and to the numbers of fields; nothing where it
tells of a failure. -/
def Answer.bare? : Answer → Option Answer
  | operation r => r.toOption.map fun o => operation (.ok o.bare)
  | operations r => r.toOption.map fun os => operations (.ok (os.map Operation.bare))
  | fragment r => r.toOption.map fun f => fragment (.ok f.bare)

namespace Session

/-- What a session answers to calls in a row. -/
def answers (s : Session) : List Call → List Answer
  | [] => []
  | c :: calls => (s.call c).1 :: (s.call c).2.answers calls

/-- Two sessions differ in nothing but how selections are split and the syntax that is kept. -/
structure Alike (s s' : Session) : Prop where
  view : s.view = s'.view
  documents : Document.Split s.view.schema s.document s'.document
  progress : s.progress.bare = s'.progress.bare

namespace Alike

variable {s s' : Session} {c c' : Call}

/-- Steps that agree succeed alike, and leave sessions that are alike, or fail both. -/
theorem run {γ : Type} {f : α → γ} {f' : β → γ} {b : Build α} {b' : Build β} (h : s.Alike s')
    (answer : γ → Answer) (agree : Build.Agree (fun a a' => f a = f' a') b b') :
    ((s.run b).1.toOption.map fun a => answer (f a)) = (s'.run b').1.toOption.map (fun a => answer (f' a))
      ∧ (((s.run b).1.toOption.map fun a => answer (f a)).isSome →
        (s.run b).2.Alike (s'.run b').2) := by
  have ends := agree s.progress s'.progress h.progress
  have result : ∀ {δ : Type} (s : Session) (b : Build δ),
      s.run b = ((b.result s.progress).1, { s with progress := (b.result s.progress).2 }) :=
    fun _ _ => rfl
  rw [result, result]
  unfold Build.done at ends
  generalize b.result s.progress = r at ends ⊢
  generalize b'.result s'.progress = r' at ends ⊢
  rcases r with ⟨e | a, p⟩ <;> rcases r' with ⟨e' | a', p'⟩ <;> cases ends
  · exact ⟨rfl, by rintro ⟨⟩⟩
  · rename_i alike
    exact ⟨congrArg (fun b => some (answer b)) alike.1, fun _ => ⟨h.view, h.documents, alike.2⟩⟩

/-- An operation is built alike. -/
theorem operation (h : s.Alike s') {o o' : Sourced OperationDefinition}
    (split : OperationDefinition.Split s.view.schema o.definition o'.definition) :
    (s.call (.operation o)).1.bare? = (s'.call (.operation o')).1.bare?
      ∧ ((s.call (.operation o)).1.bare?.isSome →
        (s.call (.operation o)).2.Alike (s'.call (.operation o')).2) := by
  have agree := Build.agree_operation h.documents split
  obtain ⟨view, document, progress⟩ := s'
  obtain rfl : s.view = view := h.view
  exact h.run (fun b => .operation (.ok b)) agree

/-- A call is answered alike, and leaves sessions that are alike if it succeeds. -/
theorem call (h : s.Alike s') (related : Call.Split s.view.schema c c') :
    (s.call c).1.bare? = (s'.call c').1.bare?
      ∧ ((s.call c).1.bare?.isSome → (s.call c).2.Alike (s'.call c').2) := by
  have views := h.view
  cases related with
  | operation split => exact h.operation split
  | operationNamed name =>
      have definitions := h.documents.operation? name
      rw [Session.call, Session.call, buildOperationNamed, buildOperationNamed]
      generalize s'.document.operation? name = found' at definitions ⊢
      generalize s.document.operation? name = found at definitions ⊢
      cases definitions with
      | none => exact ⟨rfl, by rintro ⟨⟩⟩
      | some split => exact h.operation split
  | all =>
      have agree := Build.agree_operations h.documents h.documents.operations
      obtain ⟨view, document, progress⟩ := s'
      obtain rfl : s.view = view := h.view
      exact h.run (fun bs => .operations (.ok bs)) agree
  | fragment name =>
      have agree := Build.agree_fragmentNamed h.documents [] name
      obtain ⟨view, document, progress⟩ := s'
      obtain rfl : s.view = view := h.view
      exact h.run (fun f => .fragment (.ok f)) agree

/-- After calls that succeed, sessions that were alike are alike.  The induction is on the calls. -/
theorem after {calls calls' : List Call} (h : s.Alike s')
    (related : List.Forall₂ (Call.Split s.view.schema) calls calls')
    (succeed : ∀ a ∈ s.answers calls, a.bare?.isSome) : (s.after calls).Alike (s'.after calls') := by
  generalize same : s.view = view at related
  induction related generalizing s s' with
  | nil => exact h
  | @cons c c' calls calls' first _ ih =>
      rw [answers] at succeed
      obtain ⟨succeeds, rest⟩ := List.forall_mem_cons.mp succeed
      exact ih ((h.call (same ▸ first)).2 succeeds) rest ((s.call_same c).1.trans same)

end Alike

/-- Sessions start alike where selections are split. -/
theorem start_alike {schema : Schema} {document document' : Document}
    (split : Document.Split schema document document') {next : Nat} {s s' : Session}
    (started : start schema document next = .ok s) (started' : start schema document' next = .ok s') :
    s.view.schema = schema ∧ s.Alike s' := by
  rw [split.start, started] at started'
  cases started'
  obtain ⟨view, made, same⟩ := bind_eq_ok.mp started
  obtain ⟨_, -, same'⟩ := bind_eq_ok.mp made
  cases same'
  cases same
  exact ⟨rfl, rfl, split, rfl⟩

/-- After any calls, a session answers as at its start, up to the identities of definitions. -/
theorem exists_rename_after {schema : Schema} {document : Document} {next : Nat} {s : Session}
    (started : start schema document next = .ok s) (calls : List Call) (c : Call) :
    ∃ ρ : Equiv.Perm DefinitionId, ((s.after calls).call c).1.rename ρ = (s.call c).1 := by
  obtain ⟨identity, inj⟩ := exists_identity
  obtain ⟨remembers, view, document⟩ := after_remembers inj calls s (start_remembers started)
  obtain ⟨-, ρ, answer⟩ := call_afresh inj remembers c
  obtain ⟨-, σ, answer'⟩ := call_afresh inj (start_remembers started) c
  rw [view, document, ← answer'] at answer
  refine ⟨ρ.trans σ.symm, ?_⟩
  change Answer.rename (σ.symm ∘ ρ) _ = _
  rw [← Answer.rename_rename, answer, Answer.rename_rename, Equiv.symm_comp_self, Answer.rename_id]

end Session

/-- Where selections are split, a session starts or fails with the same error.  Asked for the same
after calls that succeeded, two such sessions succeed both or fail both; if they succeed, they have
built the same, up to texts, to the selections in definitions and in the nodes of entities, and to the
numbers of fields, and they have collected the same fields.  After any other calls, of one session or
the other, their answers are still the same up to this and to the identities of definitions. -/
theorem splitting_selections_is_invisible (schema : Schema) (document document' : Document)
    (split : Document.Split schema document document') (next : Nat) :
    (∀ e, Session.start schema document next = .error e
      ↔ Session.start schema document' next = .error e)
    ∧ ∀ s s', Session.start schema document next = .ok s →
      Session.start schema document' next = .ok s' → ∀ c c', Call.Split schema c c' →
      (∀ calls calls', List.Forall₂ (Call.Split schema) calls calls' →
        (∀ a ∈ s.answers calls, a.bare?.isSome) →
          ((s.after calls).call c).1.bare? = ((s'.after calls').call c').1.bare?
          ∧ (((s.after calls).call c).1.bare?.isSome →
            ((s.after calls).call c).2.progress.bare = ((s'.after calls').call c').2.progress.bare))
      ∧ ∀ calls calls', ∃ ρ σ : Equiv.Perm DefinitionId,
          (((s.after calls).call c).1.rename ρ).bare?
            = (((s'.after calls').call c').1.rename σ).bare? := by
  constructor
  · intro e
    rw [split.start]
    cases Session.start schema document next with
    | error _ => exact Iff.rfl
    | ok _ => exact ⟨by rintro ⟨⟩, by rintro ⟨⟩⟩
  · intro s s' started started' c c' related
    obtain ⟨rfl, alike⟩ := Session.start_alike split started started'
    refine ⟨fun calls calls' relatedCalls succeed => ?_, fun calls calls' => ?_⟩
    -- Calls that succeed keep the sessions alike.
    · have later := alike.after relatedCalls succeed
      have same : (s.after calls).view = s.view := s.view_after calls
      exact (later.call (same ▸ related)).imp_right fun progress succeeds => (progress succeeds).progress
    -- Other calls do not, but no answer depends on what was asked before.
    · obtain ⟨ρ, first⟩ := Session.exists_rename_after started calls c
      obtain ⟨σ, second⟩ := Session.exists_rename_after started' calls' c'
      exact ⟨ρ, σ, by rw [first, second, (alike.call related).1]⟩

/-- A query for a hero is split, and so is an inline fragment in the fragment it spreads.  Asked for the
fragment and then for all operations, the sessions on both succeed alike. -/
theorem split_heroes_build_alike :
    let friend := Heroes.heroField "friend" [] [.field Heroes.nameField]
    let hero := fun ss => Selection.field (Heroes.heroField "hero" [Heroes.includedIf "a"] ss)
    let part := fun ss => Selection.inlineFragment none [Heroes.includedIf "b"] ss
    let spread := Selection.fragmentSpread "Friendly" []
    let document : Document := ⟨[Heroes.query [hero [.field friend, spread]]],
      [⟨⟨"Friendly", "Hero", [], [part [.field Heroes.nameField, .field friend]]⟩, none⟩]⟩
    let document' : Document := ⟨[Heroes.query [hero [.field friend], hero [spread]]],
      [⟨⟨"Friendly", "Hero", [], [part [.field Heroes.nameField], part [.field friend]]⟩, none⟩]⟩
    let calls := [Call.fragment "Friendly"]
    Document.Split Heroes.schema document document'
    ∧ ∃ s s' : Session, Session.start Heroes.schema document 0 = .ok s
      ∧ Session.start Heroes.schema document' 0 = .ok s'
      ∧ (∀ a ∈ s.answers calls, a.bare?.isSome) ∧ ((s.after calls).call .all).1.bare?.isSome
      ∧ ((s.after calls).call .all).1.bare? = ((s'.after calls).call .all).1.bare?
      ∧ ((s.after calls).call .all).2.progress.bare = ((s'.after calls).call .all).2.progress.bare := by
  intro friend hero part spread document document' calls
  have heroes : Heroes.schema.SelectsOn (.named "Hero") := by decide +kernel
  have operation : Split Heroes.schema [hero [.field friend, spread]]
      [hero [.field friend], hero [spread]] :=
    .field none [] [Heroes.includedIf "a"] heroes [.field friend] [spread]
  have fragment : Split Heroes.schema [part [.field Heroes.nameField, .field friend]]
      [part [.field Heroes.nameField], part [.field friend]] :=
    .inline none [Heroes.includedIf "b"] [.field Heroes.nameField] [.field friend]
  have split : Document.Split Heroes.schema document document' :=
    ⟨.cons ⟨_, operation, rfl⟩ .nil, .cons ⟨_, fragment, rfl⟩ .nil⟩
  obtain ⟨s, started, succeed⟩ := (Option.any_eq_true _ _).mp
    (show ((Session.start Heroes.schema document 0).toOption.any fun s =>
      (s.answers calls).all (fun a => a.bare?.isSome)
        && ((s.after calls).call .all).1.bare?.isSome) = true by decide +kernel)
  obtain ⟨s', started'⟩ := Option.isSome_iff_exists.mp
    (show (Session.start Heroes.schema document' 0).toOption.isSome = true by decide +kernel)
  have started := eq_ok_of_toOption started
  have started' := eq_ok_of_toOption started'
  obtain ⟨succeed, succeeds⟩ := (Bool.and_eq_true _ _).mp succeed
  rw [List.all_eq_true] at succeed
  obtain ⟨same, progress⟩ := ((splitting_selections_is_invisible Heroes.schema document document' split
    0).2 s s' started started' .all .all .all).1 calls calls (.cons (.fragment "Friendly") .nil) succeed
  exact ⟨split, s, s', started, started', succeed, succeeds, same, progress succeeds⟩

end SelectionGraph
