import SelectionGraph.Proofs.Session.Failed
import SelectionGraph.Proofs.Session.Reachable

/-!
# Outcome — what a build comes to, and what that says about the definitions it involves

* `ExecutableDefinition.Involves`  — a definition, the fragments it spreads, those that they spread,
  and so on;
* `Session.Outcome`                — what a session answers when it is asked for a definition;
* `WalkedFrom.involved`            — after a success all of them were walked from, and every selection
  that is visited in them can be read;
* `Build.fragmentNamed_failed`     — what holds of every failure of a fragment, by induction on the
  fragments in progress.
-/

namespace SelectionGraph

variable {view : SchemaView} {document : Document} {built : List NamedFragment}

/-! ## Definitions that a definition involves -/

/-- A definition of a document: itself, or a fragment that one of them spreads. -/
inductive ExecutableDefinition.Involves (view : SchemaView) (document : Document)
    (d : ExecutableDefinition) : ExecutableDefinition → Prop
  | self : Involves view document d d
  | spread {x : ExecutableDefinition} {name : Name} {f : Sourced FragmentDefinition}
      (involved : Involves view document d x) (spreads : Spreads view x.selections name)
      (defined : document.fragment? name = some f) : Involves view document d (.fragment f.definition)

/-- What a session answers when it is asked for an operation, or for a fragment of its document. -/
inductive Session.Outcome (s : Session) :
    ExecutableDefinition → Except BuildError BuiltSelections → Prop
  | operation (o : Sourced OperationDefinition) :
      Outcome s (.operation o.definition) ((s.buildOperation o).1.map Operation.built)
  | fragment {name : Name} {f : Sourced FragmentDefinition}
      (defined : s.document.fragment? name = some f) :
      Outcome s (.fragment f.definition) ((s.buildFragment name).1.map NamedFragment.built)

/-! ## After a success -/

/-- What a walk that succeeds has found out about a selection: its directives can be read, and if it
is a spread then its fragment is there. -/
structure Selection.Settled (built : List NamedFragment) (s : Selection) : Prop where
  included : ∃ inclusion, Inclusion.ofDirectives s.directives = .ok inclusion
  deferred : s.isFragment = true → ∃ deferral, Deferral.ofDirectives s.directives = .ok deferral
  found : ∀ name directives, s = .fragmentSpread name directives →
    ∃ f, NamedFragment.find? built name = some f

/-- A successful walk has settled every selection that it came to. -/
theorem Walked.settled {info : TypeInfo} {direct direct' : DirectSelections} {draft draft' : Draft}
    {ss : List Selection} (h : Walked view built info direct draft ss direct' draft') :
    ∀ s, Visited view ss s → s.Settled built := by
  induction h with
  | nil =>
      intro s visited
      exact absurd visited Visited.not_nil
  | skipped skips _ ih =>
      intro s visited
      rcases Visited.cons_iff.mp visited with here | later
      · exact absurd here (Visited.not_skipped skips)
      · exact ih s later
  | leaf included isLeaf _ _ ih =>
      intro s visited
      rcases Visited.cons_iff.mp visited with here | later
      · rcases (Visited.field_iff (Selection.not_skipped included)).mp here with
          rfl | ⟨isComposite, -⟩
        · exact ⟨⟨_, included⟩, nofun, nofun⟩
        · cases isLeaf.symm.trans isComposite
      · exact ih s later
  | entity included isComposite _ _ _ _ ihInner ih =>
      intro s visited
      rcases Visited.cons_iff.mp visited with here | later
      · rcases (Visited.field_iff (Selection.not_skipped included)).mp here with rfl | ⟨-, inner⟩
        · exact ⟨⟨_, included⟩, nofun, nofun⟩
        · exact ihInner s inner
      · exact ih s later
  | flat read scope deferred _ _ _ ihInside ih =>
      intro s visited
      have included := Inclusion.ofDirectives_of_verdict read
      rw [scope] at included
      rcases Visited.cons_iff.mp visited with here | later
      · rcases (Visited.inline_iff (Selection.not_skipped included)).mp here with rfl | inner
        · exact ⟨⟨_, included⟩, fun _ => ⟨_, deferred⟩, nofun⟩
        · exact ihInside s inner
      · exact ih s later
  | inline read scope deferred _ _ _ _ ihInside ih =>
      intro s visited
      have included := Inclusion.ofDirectives_of_verdict read
      rw [scope] at included
      rcases Visited.cons_iff.mp visited with here | later
      · rcases (Visited.inline_iff (Selection.not_skipped included)).mp here with rfl | inner
        · exact ⟨⟨_, included⟩, fun _ => ⟨_, deferred⟩, nofun⟩
        · exact ihInside s inner
      · exact ih s later
  | spread included deferred found _ _ _ ih =>
      intro s visited
      rcases Visited.cons_iff.mp visited with here | later
      · cases (Visited.spread_iff (Selection.not_skipped included)).mp here
        refine ⟨⟨_, included⟩, fun _ => ⟨_, deferred⟩, ?_⟩
        rintro name directives ⟨⟩
        exact ⟨_, found⟩
      · exact ih s later

/-- A fragment that is built has the definition that the document gives its name. -/
theorem Library.defined (h : Library view document built) : ∀ g ∈ built,
    ∃ f : Sourced FragmentDefinition, document.fragment? g.name = some f
      ∧ f.definition = g.definition :=
  h.induction fun _ f name _ _ _ _ _ defined _ => by
    refine ⟨f, ?_, rfl⟩
    rw [NamedFragment.name, Document.name_of_fragment? defined]
    exact defined

namespace WalkedFrom

variable {source : SourceDefinition} {rootName : Name} {b : BuiltSelections}

theorem settled (h : WalkedFrom view built source rootName b) {s : Selection}
    (visited : Visited view source.definition.selections s) : s.Settled built := by
  obtain ⟨direct, draft, walked, -⟩ := h
  exact walked.settled s visited

/-- A fragment that a walk comes to a spread of is there. -/
theorem found (h : WalkedFrom view built source rootName b) {name : Name}
    (spreads : Spreads view source.definition.selections name) :
    ∃ f, NamedFragment.find? built name = some f := by
  obtain ⟨directives, visited⟩ := spreads
  exact (h.settled visited).found name directives rfl

/-- All definitions that a built one involves were walked from, with fragments built before. -/
theorem involved (library : Library view document built)
    (h : WalkedFrom view built source rootName b) {x : ExecutableDefinition}
    (involves : source.definition.Involves view document x) :
    ∃ earlier id rootName b, Library view document earlier
      ∧ WalkedFrom view earlier ⟨id, x⟩ rootName b := by
  induction involves with
  | self => exact ⟨built, source.id, rootName, b, library, h⟩
  | spread _ spreads defined ih =>
      obtain ⟨earlier, id, _, _, library, walked⟩ := ih
      obtain ⟨g, found⟩ := walked.found spreads
      obtain ⟨mem, named⟩ := NamedFragment.mem_of_find? found
      -- The fragment found has the document's definition of its name, which is unique.
      obtain ⟨f', defined', same⟩ := library.defined g mem
      rw [named, defined] at defined'
      cases defined'
      obtain ⟨before, id, rootName, library, walked⟩ := library.walked g mem
      rw [← same] at walked
      exact ⟨before, id, rootName, g.built, library, walked⟩

end WalkedFrom

/-- A session that answers with a definition has built it. -/
theorem Session.Outcome.builds {s : Session} {d : ExecutableDefinition} {b : BuiltSelections}
    (reachable : s.Reachable document) (h : s.Outcome d (.ok b)) : s.Builds d b := by
  generalize outcome : (Except.ok b : Except BuildError BuiltSelections) = r at h
  cases h with
  | operation o =>
      cases answer : (s.buildOperation o).1 with
      | error e => rw [answer] at outcome; cases outcome
      | ok operation =>
          rw [answer] at outcome
          cases outcome
          exact .operation answer
  | fragment defined =>
      rename_i name f
      cases answer : (s.buildFragment name).1 with
      | error e => rw [answer] at outcome; cases outcome
      | ok fragment =>
          rw [answer] at outcome
          cases outcome
          have builds := Session.Builds.fragment answer
          -- What was built under the name is what the document defines under it.
          have sound := reachable.sound
          have keeps := Build.fragmentNamed_spec s.view s.document [] name
          have library := (sound.run keeps.1).library
          have found := keeps.2 s.progress fragment (s.buildFragment name).2.progress
            (Prod.ext answer rfl)
          obtain ⟨mem, named⟩ := NamedFragment.mem_of_find? found
          obtain ⟨f', defined', same⟩ := library.defined fragment mem
          rw [named, ← sound.same, defined] at defined'
          cases defined'
          exact same ▸ builds

/-! ## After a failure -/

/-- The walk of a definition has failed. -/
def FailedFrom (view : SchemaView) (built : List NamedFragment) (asked : Name → BuildError → Prop)
    (source : SourceDefinition) (e : BuildError) : Prop :=
  Failed view built asked (source.info view) .empty (.start source) source.definition.selections e

/-- What the look-up answers matters only for the fragments it was asked for. -/
theorem Failed.imp {asked asked' : Name → BuildError → Prop} {e : BuildError}
    (more : ∀ name, asked name e → asked' name e) {info : TypeInfo} {direct : DirectSelections}
    {draft : Draft} {ss : List Selection} (h : Failed view built asked info direct draft ss e) :
    Failed view built asked' info direct draft ss e := by
  induction h with
  | later first _ ih => exact later first (ih more)
  | unread fails => exact unread fails
  | undeferred fragment kept fails => exact undeferred fragment kept fails
  | noTree fails => exact noTree fails
  | noType included fails => exact noType included fails
  | leaf included isLeaf fails => exact leaf included isLeaf fails
  | noEntity fails => exact noEntity fails
  | inField included isComposite selected _ ih =>
      exact inField included isComposite selected (ih more)
  | entity included isComposite selected inner fails =>
      exact entity included isComposite selected inner fails
  | inFlat read scope deferred flattens _ ih => exact inFlat read scope deferred flattens (ih more)
  | inInline read scope deferred opens _ ih => exact inInline read scope deferred opens (ih more)
  | inline read scope deferred opens inside fails =>
      exact inline read scope deferred opens inside fails
  | lookUp included fails => exact lookUp included (more _ fails)
  | merge found fails => exact merge found fails
  | noTreeMerged found merged fails => exact noTreeMerged found merged fails
  | spread found fails => exact spread found fails

namespace Build

variable {p p' : Progress} {e : BuildError}

theorem selections_failed {fragmentNamed : Name → Build NamedFragment}
    (lookUp : Walk.LookUp fragmentNamed) (definition : ExecutableDefinition) {rootName : Name}
    (h : (selections view fragmentNamed definition rootName definition.selections).result p
      = (.error e, p')) :
    FailedFrom view p'.fragments (Walk.Asked fragmentNamed p') ⟨⟨p.nextDefinition⟩, definition⟩ e := by
  rw [result_selections] at h
  split at h
  · cases h
  · rename_i e q run
    cases h
    exact Walk.failed_all lookUp _ _ _ _ _ run

/-- The fragments in progress do not matter to what a look-up finds. -/
theorem lookUp_inProgress (view : SchemaView) (document : Document) (inProgress : List Name) :
    Walk.LookUp (fragmentNamed view document inProgress) where
  keeps name p := ((fragmentNamed_spec view document inProgress name).1 p).1
  finds name := (fragmentNamed_spec view document inProgress name).2

/-- What holds of every failure of a fragment: it is in progress, or it is not defined, or its own
walk fails, where it is in progress itself. -/
theorem fragmentNamed_failed {P : List Name → Name → BuildError → Prop}
    (circle : ∀ inProgress name, name ∈ inProgress →
      P inProgress name (.cyclicFragment name (cycle inProgress name)))
    (unknown : ∀ inProgress name, document.fragment? name = none →
      P inProgress name (.unknownFragment name))
    (inside : ∀ inProgress name f id e, name ∉ inProgress → document.fragment? name = some f →
      FailedFrom view p'.fragments (P (inProgress ++ [name])) ⟨id, .fragment f.definition⟩ e →
      P inProgress name e)
    (inProgress : List Name) (name : Name) (p : Progress) (e : BuildError)
    (h : (fragmentNamed view document inProgress name).result p = (.error e, p')) :
    P inProgress name e := by
  rw [result_fragmentNamed] at h
  cases unbuilt : NamedFragment.find? p.fragments name with
  | some f => rw [unbuilt] at h; cases h
  | none =>
      simp only [unbuilt] at h
      by_cases active : name ∈ inProgress
      · rw [if_pos active] at h
        cases h
        exact circle inProgress name active
      rw [if_neg active] at h
      cases defined : document.fragment? name with
      | none =>
          simp only [defined] at h
          cases h
          exact unknown inProgress name defined
      | some f =>
          simp only [defined] at h
          split at h
          · cases h
          · rename_i e q run
            cases h
            have failed := selections_failed
              (lookUp_inProgress view document (inProgress ++ [name])) (.fragment f.definition) run
            refine inside inProgress name f _ e active defined (failed.imp fun other asked => ?_)
            obtain ⟨q, answer⟩ := asked
            exact fragmentNamed_failed circle unknown inside (inProgress ++ [name]) other q e answer
termination_by waiting document inProgress
decreasing_by exact waiting_lt active defined

end Build

namespace Session

variable {s : Session} {e : BuildError}

theorem map_eq_error {α β : Type} {r : Except BuildError α} {g : α → β} :
    r.map g = .error e ↔ r = .error e := by
  cases r <;> simp [Except.map]

/-- A session that answers with an error has failed to build an operation, or a fragment of its
document. -/
theorem Outcome.failed {d : ExecutableDefinition} (h : s.Outcome d (.error e)) :
    (∃ o : Sourced OperationDefinition, d = .operation o.definition
        ∧ (s.buildOperation o).1 = .error e)
      ∨ ∃ name f, s.document.fragment? name = some f ∧ d = .fragment f.definition
        ∧ (s.buildFragment name).1 = .error e := by
  generalize outcome : (Except.error e : Except BuildError BuiltSelections) = r at h
  cases h with
  | operation o => exact Or.inl ⟨o, rfl, map_eq_error.mp outcome.symm⟩
  | fragment defined => exact Or.inr ⟨_, _, defined, rfl, map_eq_error.mp outcome.symm⟩

theorem buildOperation_failed {o : Sourced OperationDefinition}
    (h : (s.buildOperation o).1 = .error e) :
    FailedFrom s.view (s.buildOperation o).2.progress.fragments
      (Walk.Asked (Build.fragmentNamed s.view s.document []) (s.buildOperation o).2.progress)
      ⟨⟨s.progress.nextDefinition⟩, .operation o.definition⟩ e := by
  have run : (Build.operation s.view s.document o).result s.progress
      = (.error e, (s.buildOperation o).2.progress) := Prod.ext h rfl
  -- After its selections nothing of an operation can fail.
  rw [Build.operation, Build.result_bind] at run
  split at run
  · cases run
  · rename_i e' p' failing
    injection run with same progress
    cases same
    rw [progress] at failing
    exact Build.selections_failed (Build.lookUp_fragmentNamed s.view s.document)
      (.operation o.definition) failing

theorem buildFragment_failed {name : Name} (h : (s.buildFragment name).1 = .error e) :
    (Build.fragmentNamed s.view s.document [] name).result s.progress
      = (.error e, (s.buildFragment name).2.progress) :=
  Prod.ext h rfl

/-- A session at its beginning, and the error that it answers with for an operation. -/
theorem exists_outcome (document : Document) (schema : Schema)
    (o : Sourced OperationDefinition) (e : BuildError)
    (fails : ((start schema document 0).toOption.any fun s =>
      match (s.buildOperation o).1 with
      | .ok _ => false
      | .error e' => e' == e) = true) :
    ∃ s : Session, s.Reachable document ∧ s.Outcome (.operation o.definition) (.error e) := by
  obtain ⟨s, started, fails⟩ := (Option.any_eq_true _ _).mp fails
  have started := eq_ok_of_toOption started
  have outcome := @Session.Outcome.operation s o
  cases answer : (s.buildOperation o).1 with
  | ok b => simp [answer] at fails
  | error e' =>
      rw [answer] at fails outcome
      cases eq_of_beq fails
      exact ⟨s, .start started, outcome⟩

end Session
end SelectionGraph
