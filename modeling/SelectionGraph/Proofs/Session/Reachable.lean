import SelectionGraph.Session.Basic
import SelectionGraph.Proofs.Entity.Storage
import SelectionGraph.Proofs.Session.Walked

/-!
# Reachable — the sessions that builds lead to, and what they have built

* `Build.result_selections`, `Build.result_fragmentNamed` — one step of the building of a definition;
* `WalkedFrom`         — what the selections of a definition come to, by a walk from its root;
* `Library`            — fragments of a document, each walked from with those before it;
* `Session.Reachable`  — the sessions that any sequence of builds, failed ones included, leads to;
* `Session.Builds`     — a session builds an operation or a fragment;
* `Session.Builds.walked` — in a reachable session whatever is built is walked from, with a library.
-/

namespace SelectionGraph

/-- The selections of a definition. -/
def ExecutableDefinition.selections : ExecutableDefinition → List Selection
  | operation o => o.selections
  | fragment f => f.selections

/-- The type that the selections of a definition are made on. -/
def ExecutableDefinition.rootType : ExecutableDefinition → Name
  | operation o => o.rootType
  | fragment f => f.typeCondition

theorem SourceDefinition.rootType_eq (source : SourceDefinition) :
    source.rootType = source.definition.rootType := by
  obtain ⟨id, o | f⟩ := source <;> rfl

/-- The place of a definition's selections. -/
def SourceDefinition.info (source : SourceDefinition) (view : SchemaView) : TypeInfo :=
  ⟨.root, source.rootType, .root, view.isRootFieldType source.rootType⟩

/-- What the walk of a definition comes to, put together. -/
def SourceDefinition.built (source : SourceDefinition) (view : SchemaView) (rootName : Name)
    (direct : DirectSelections) (draft : Draft) : BuiltSelections :=
  ⟨⟨source.id.rootField, rootName, .nonNullNamed source.rootType, none, .always,
    ⟨source.info view, direct⟩⟩, draft.referenced, draft.entities, draft.containsDeferred⟩

/-! ## One step of building -/

namespace Build

theorem result_selections (view : SchemaView) (fragmentNamed : Name → Build NamedFragment)
    (definition : ExecutableDefinition) (rootName : Name) (ss : List Selection) (p : Progress) :
    (selections view fragmentNamed definition rootName ss).result p
      = match (Walk.all view fragmentNamed
            (SourceDefinition.info ⟨⟨p.nextDefinition⟩, definition⟩ view) .empty ss).result
            (.start ⟨⟨p.nextDefinition⟩, definition⟩)
            { p with nextDefinition := p.nextDefinition + 1 } with
        | (.ok (direct, draft), p') =>
            (.ok (SourceDefinition.built ⟨⟨p.nextDefinition⟩, definition⟩ view rootName direct draft),
              p')
        | (.error e, p') => (.error e, p') := by
  rw [selections, result_bind]
  change (match ((Except.ok ⟨p.nextDefinition⟩, { p with nextDefinition := p.nextDefinition + 1 })
    : Except BuildError DefinitionId × Progress) with | _ => _) = _
  dsimp only
  rw [result_bind]
  rcases r : (Walk.all view fragmentNamed
      (SourceDefinition.info ⟨⟨p.nextDefinition⟩, definition⟩ view) .empty ss).result
      (.start ⟨⟨p.nextDefinition⟩, definition⟩)
      { p with nextDefinition := p.nextDefinition + 1 } with ⟨e | ⟨direct, draft⟩, p'⟩
  · unfold Walk.result SourceDefinition.info at r
    rw [r]
  · unfold Walk.result SourceDefinition.info at r
    rw [r]
    rfl

theorem result_fragmentNamed (view : SchemaView) (document : Document) (inProgress : List Name)
    (name : Name) (p : Progress) :
    (fragmentNamed view document inProgress name).result p
      = match NamedFragment.find? p.fragments name with
        | some built => (.ok built, p)
        | none =>
            if name ∈ inProgress then (.error (.cyclicFragment name (cycle inProgress name)), p)
            else
              match document.fragment? name with
              | none => (.error (.unknownFragment name), p)
              | some f =>
                  match (selections view (fragmentNamed view document (inProgress ++ [name]))
                      (.fragment f.definition) name f.definition.selections).result p with
                  | (.ok b, p') =>
                      let fragment := ⟨f.definition, b, sourceOf FragmentDefinition.text f⟩
                      (.ok fragment, { p' with fragments := p'.fragments ++ [fragment] })
                  | (.error e, p') => (.error e, p') := by
  rw [fragmentNamed, result_bind]
  change (match ((Except.ok p, p) : Except BuildError Progress × Progress) with | _ => _) = _
  dsimp only [NamedFragment.find?]
  cases p.fragments.find? fun f => f.name == name with
  | some built => rfl
  | none =>
      dsimp only
      by_cases active : name ∈ inProgress
      · rw [dif_pos active, if_pos active]
        rfl
      · rw [dif_neg active, if_neg active]
        split
        · rename_i undefined
          rw [undefined]
          rfl
        · rename_i f defined
          rw [defined, result_bind]
          dsimp only
          rcases (selections _ _ _ _ _).result p with ⟨e | b, p'⟩ <;> rfl

end Build

/-! ## Fragments that are built -/

/-- What a definition comes to: its selections are walked from its root, with these fragments. -/
def WalkedFrom (view : SchemaView) (built : List NamedFragment) (source : SourceDefinition)
    (rootName : Name) (b : BuiltSelections) : Prop :=
  ∃ direct draft, Walked view built (source.info view) .empty (.start source)
      source.definition.selections direct draft
    ∧ b = source.built view rootName direct draft

/-- Fragments of a document in the order they were finished, each walked from with those before
it. -/
inductive Library (view : SchemaView) (document : Document) : List NamedFragment → Prop
  | nil : Library view document []
  | snoc {built : List NamedFragment} {f : Sourced FragmentDefinition} {name text : String}
      {id : DefinitionId} {b : BuiltSelections} (earlier : Library view document built)
      (new : NamedFragment.find? built name = none) (defined : document.fragment? name = some f)
      (walked : WalkedFrom view built ⟨id, .fragment f.definition⟩ name b) :
      Library view document (built ++ [⟨f.definition, b, text⟩])

theorem Document.name_of_fragment? {document : Document} {name : Name}
    {f : Sourced FragmentDefinition} (h : document.fragment? name = some f) :
    f.definition.name = name := by
  simpa using List.find?_some h

theorem NamedFragment.mem_of_find? {built : List NamedFragment} {name : Name} {f : NamedFragment}
    (h : find? built name = some f) : f ∈ built ∧ f.name = name :=
  ⟨List.mem_of_find?_eq_some h, by simpa using List.find?_some h⟩

/-- What holds of a fragment whenever it holds of the fragments that it was walked with. -/
theorem Library.induction {view : SchemaView} {document : Document} {P : NamedFragment → Prop}
    (step : ∀ (built : List NamedFragment) (f : Sourced FragmentDefinition) (name text : String)
      (id : DefinitionId) (b : BuiltSelections), Library view document built → (∀ g ∈ built, P g) →
      document.fragment? name = some f →
      WalkedFrom view built ⟨id, .fragment f.definition⟩ name b → P ⟨f.definition, b, text⟩)
    {built : List NamedFragment} (h : Library view document built) : ∀ g ∈ built, P g := by
  induction h with
  | nil => simp
  | snoc earlier _ defined walked ih =>
      simp only [List.forall_mem_append, List.forall_mem_singleton]
      exact ⟨ih, step _ _ _ _ _ _ earlier ih defined walked⟩

/-- Each fragment was walked from, with fragments of the document. -/
theorem Library.walked {view : SchemaView} {document : Document} {built : List NamedFragment}
    (h : Library view document built) : ∀ g ∈ built, ∃ earlier id rootName,
      Library view document earlier ∧ WalkedFrom view earlier ⟨id, .fragment g.definition⟩ rootName
        g.built :=
  h.induction fun earlier _ name _ id _ library _ _ walked => ⟨earlier, id, name, library, walked⟩

namespace Build

variable {view : SchemaView} {document : Document}

theorem gives_selections {fragmentNamed : Name → Build NamedFragment}
    (lookUp : Walk.LookUp fragmentNamed) (definition : ExecutableDefinition) {rootName : Name}
    {p p' : Progress} {b : BuiltSelections}
    (h : (selections view fragmentNamed definition rootName definition.selections).Gives p b p') :
    WalkedFrom view p'.fragments ⟨⟨p.nextDefinition⟩, definition⟩ rootName b := by
  unfold Gives at h
  rw [result_selections] at h
  split at h
  · rename_i direct draft q run
    cases h
    exact ⟨direct, draft, Walk.walked_all lookUp _ _ _ _ _ _ _ _ run, rfl⟩
  · cases h

theorem keeps_selections {R : Progress → Progress → Prop} (order : Progress.Order R)
    {fragmentNamed : Name → Build NamedFragment} (lookUp : ∀ name, (fragmentNamed name).Keeps R)
    (fresh : ∀ p, R p { p with nextDefinition := p.nextDefinition + 1 })
    (view : SchemaView) (definition : ExecutableDefinition) (rootName : Name) (ss : List Selection)
    (collect : ∀ t f, Selected definition.rootType ss t f →
      (Build.collect t f.name f.type).Keeps R) :
    (selections view fragmentNamed definition rootName ss).Keeps R := by
  intro p
  rw [result_selections]
  let source : SourceDefinition := ⟨⟨p.nextDefinition⟩, definition⟩
  have type : (source.info view).parentType = definition.rootType := source.rootType_eq
  have walk := @Walk.keeps_all R order view _ lookUp (source.info view) .empty ss (type ▸ collect)
    (.start source) { p with nextDefinition := p.nextDefinition + 1 }
  split <;> rename_i run <;> rw [run] at walk <;> exact order.trans (fresh p) walk

/-- Building keeps what was built, and finishes no fragment that is in progress. -/
def Advances (view : SchemaView) (document : Document) (inProgress : List Name)
    (p p' : Progress) : Prop :=
  p.fragments <+: p'.fragments
    ∧ (Library view document p.fragments → Library view document p'.fragments)
    ∧ ∀ n ∈ inProgress, NamedFragment.find? p.fragments n = none →
      NamedFragment.find? p'.fragments n = none

theorem advances_order (view : SchemaView) (document : Document) (inProgress : List Name) :
    Progress.Order (Advances view document inProgress) where
  refl _ := ⟨List.prefix_refl _, id, fun _ _ => id⟩
  trans h₁ h₂ := ⟨h₁.1.trans h₂.1, h₂.2.1 ∘ h₁.2.1, fun n mem => h₂.2.2 n mem ∘ h₁.2.2 n mem⟩

theorem Advances.keep {view : SchemaView} {document : Document} {inProgress : List Name}
    {name : Name} {p p' : Progress} (h : Advances view document (inProgress ++ [name]) p p') :
    Advances view document inProgress p p' :=
  ⟨h.1, h.2.1, fun n mem => h.2.2 n (List.mem_append_left _ mem)⟩

/-- A fragment that was in progress is finished: it comes after those that its walk has built. -/
theorem Advances.finish {view : SchemaView} {document : Document} {inProgress : List Name}
    {name text : String} {p p' : Progress} {id : DefinitionId} {f : Sourced FragmentDefinition}
    {b : BuiltSelections} (h : Advances view document (inProgress ++ [name]) p p')
    (inactive : name ∉ inProgress) (unbuilt : NamedFragment.find? p.fragments name = none)
    (defined : document.fragment? name = some f)
    (walked : WalkedFrom view p'.fragments ⟨id, .fragment f.definition⟩ name b) :
    let fragments := p'.fragments ++ [⟨f.definition, b, text⟩]
    Advances view document inProgress p { p' with fragments }
      ∧ NamedFragment.find? fragments name = some ⟨f.definition, b, text⟩ := by
  have named := Document.name_of_fragment? defined
  have new : NamedFragment.find? p'.fragments name = none := h.2.2 name (by simp) unbuilt
  refine ⟨⟨h.1.trans (List.prefix_append _ _), ?_, ?_⟩, ?_⟩
  · exact fun library => .snoc (h.2.1 library) new defined walked
  · intro n mem unbuiltN
    have apart : name ≠ n := fun same => inactive (same ▸ mem)
    have still := h.2.2 n (List.mem_append_left _ mem) unbuiltN
    simp only [NamedFragment.find?, List.find?_append] at still ⊢
    rw [still]
    simp [NamedFragment.name, named, apart]
  · simp only [NamedFragment.find?, List.find?_append] at new ⊢
    rw [new]
    simp [NamedFragment.name, named]

/-- Building a fragment advances, and the fragment it gives is found among those built.  The
induction is on the fragments that are not in progress. -/
theorem fragmentNamed_spec (view : SchemaView) (document : Document) (inProgress : List Name)
    (name : Name) :
    (fragmentNamed view document inProgress name).Keeps (Advances view document inProgress)
      ∧ ∀ p f p', (fragmentNamed view document inProgress name).Gives p f p' →
        NamedFragment.find? p'.fragments name = some f := by
  have order := advances_order view document inProgress
  -- What building does is said of its whole result, so that success and failure are treated once.
  suffices spec : ∀ p, Advances view document inProgress p
        ((fragmentNamed view document inProgress name).result p).2
      ∧ ∀ f p', (fragmentNamed view document inProgress name).result p = (.ok f, p') →
        NamedFragment.find? p'.fragments name = some f from
    ⟨fun p => (spec p).1, fun p f p' gives => (spec p).2 f p' gives⟩
  intro p
  rw [result_fragmentNamed]
  cases unbuilt : NamedFragment.find? p.fragments name with
  | some built =>
      refine ⟨order.refl p, ?_⟩
      rintro f p' ⟨⟩
      exact unbuilt
  | none =>
      dsimp only
      by_cases active : name ∈ inProgress
      · rw [if_pos active]
        exact ⟨order.refl p, by rintro f p' ⟨⟩⟩
      · rw [if_neg active]
        cases defined : document.fragment? name with
        | none => exact ⟨order.refl p, by rintro f p' ⟨⟩⟩
        | some f =>
            have nested := fun spread =>
              fragmentNamed_spec view document (inProgress ++ [name]) spread
            have lookUp : Walk.LookUp (fragmentNamed view document (inProgress ++ [name])) :=
              ⟨fun spread p => ((nested spread).1 p).1, fun spread => (nested spread).2⟩
            have advances := keeps_selections
              (advances_order view document (inProgress ++ [name])) (fun spread => (nested spread).1)
              (fun p => (advances_order view document (inProgress ++ [name])).refl p)
              view (.fragment f.definition) name f.definition.selections
              (fun _ _ _ p => (advances_order view document (inProgress ++ [name])).refl p) p
            dsimp only
            rcases run : (selections view (fragmentNamed view document (inProgress ++ [name]))
              (.fragment f.definition) name f.definition.selections).result p with ⟨e | b, p'⟩
            · rw [run] at advances
              exact ⟨advances.keep, by rintro f p' ⟨⟩⟩
            · rw [run] at advances
              have walked := gives_selections lookUp (.fragment f.definition) run
              obtain ⟨finished, found⟩ := advances.finish active unbuilt defined walked
              refine ⟨finished, ?_⟩
              rintro g q ⟨⟩
              exact found
termination_by waiting document inProgress
decreasing_by exact waiting_lt active defined

/-- Fragments are looked up in the session from outside with none in progress. -/
theorem lookUp_fragmentNamed (view : SchemaView) (document : Document) :
    Walk.LookUp (fragmentNamed view document []) where
  keeps name p := ((fragmentNamed_spec view document [] name).1 p).1
  finds name := (fragmentNamed_spec view document [] name).2

theorem keeps_operation (view : SchemaView) (document : Document)
    (o : Sourced OperationDefinition) :
    (operation view document o).Keeps (Advances view document []) := by
  have order := advances_order view document []
  exact .bind order
    (keeps_selections order (fun name => (fragmentNamed_spec view document [] name).1)
      (fun p => order.refl p) view _ _ _ fun _ _ _ p => order.refl p)
    fun _ => keeps_pure order _

theorem walkedFrom_operation {o : Sourced OperationDefinition} {p p' : Progress} {b : Operation}
    (h : (operation view document o).Gives p b p') :
    b.definition = o.definition ∧ WalkedFrom view p'.fragments
      ⟨⟨p.nextDefinition⟩, .operation o.definition⟩ operationRoot b.built := by
  obtain ⟨built, q, walked, done⟩ := gives_bind.mp h
  obtain ⟨rfl, rfl⟩ := gives_pure.mp done
  exact ⟨rfl, gives_selections (lookUp_fragmentNamed view document)
    (.operation o.definition) walked⟩

theorem keeps_operations (view : SchemaView) (document : Document)
    (os : List (Sourced OperationDefinition)) :
    (os.mapM (operation view document)).Keeps (Advances view document []) :=
  keeps_mapM (advances_order view document []) os fun o _ => keeps_operation view document o

/-- Operations that are built one after the other are each built with fragments of the document. -/
theorem gives_operations {view : SchemaView} {document : Document}
    {os : List (Sourced OperationDefinition)} {p p' : Progress} {bs : List Operation}
    (gives : (os.mapM (operation view document)).Gives p bs p') :
    ∀ b ∈ bs, ∃ o ∈ os, ∃ q q', Advances view document [] p q
      ∧ (operation view document o).Gives q b q' ∧ Advances view document [] q' p' :=
  gives_mapM (advances_order view document []) os (fun o _ => keeps_operation view document o) gives

end Build

/-! ## Sessions -/

namespace Session

/-- The sessions on a document that builds lead to, in any order and whether they succeed or fail.
Operations may come from elsewhere. -/
inductive Reachable (document : Document) : Session → Prop
  | start {schema : Schema} {next : Nat} {s : Session}
      (started : start schema document next = .ok s) : Reachable document s
  | operation {s : Session} (o : Sourced OperationDefinition) (before : Reachable document s) :
      Reachable document (s.buildOperation o).2
  | operationNamed {s : Session} (name : Option Name) (before : Reachable document s) :
      Reachable document (s.buildOperationNamed name).2
  | all {s : Session} (before : Reachable document s) : Reachable document s.buildAll.2
  | fragment {s : Session} (name : Name) (before : Reachable document s) :
      Reachable document (s.buildFragment name).2

/-- What a session makes of a definition, if it succeeds. -/
inductive Builds (s : Session) : ExecutableDefinition → BuiltSelections → Prop
  | operation {o : Sourced OperationDefinition} {b : Operation}
      (built : (s.buildOperation o).1 = .ok b) : Builds s (.operation o.definition) b.built
  | fragment {name : Name} {f : NamedFragment} (built : (s.buildFragment name).1 = .ok f) :
      Builds s (.fragment f.definition) f.built

variable {document : Document} {s : Session}

/-- The fragments of a session were built from its document. -/
structure Sound (document : Document) (s : Session) : Prop where
  same : s.document = document
  library : Library s.view document s.progress.fragments

theorem Sound.run {α : Type} {step : Build α} (sound : s.Sound document)
    (keeps : step.Keeps (Build.Advances s.view s.document [])) : (s.run step).2.Sound document where
  same := sound.same
  library := by
    have advances := keeps s.progress
    rw [sound.same] at advances
    exact advances.2.1 sound.library

theorem Reachable.sound (h : s.Reachable document) : s.Sound document := by
  induction h with
  | start started =>
      rename_i schema next s
      unfold Session.start at started
      cases view : SchemaView.ofDocument schema document with
      | error e => rw [view] at started; cases started
      | ok view =>
          rw [view] at started
          cases started
          exact ⟨rfl, .nil⟩
  | operation o _ ih => exact ih.run (Build.keeps_operation _ _ o)
  | operationNamed name _ ih =>
      unfold buildOperationNamed
      split
      · exact ih.run (Build.keeps_operation _ _ _)
      · exact ih
  | all _ ih => exact ih.run (Build.keeps_operations _ _ _)
  | fragment name _ ih => exact ih.run (Build.fragmentNamed_spec _ _ [] name).1

/-- The fragment that a session answers with is the one that it has by then under the name. -/
theorem find?_buildFragment {name : Name} {f : NamedFragment}
    (h : (s.buildFragment name).1 = .ok f) :
    NamedFragment.find? (s.buildFragment name).2.progress.fragments name = some f :=
  (Build.fragmentNamed_spec s.view s.document [] name).2 s.progress f
    (s.buildFragment name).2.progress (Prod.ext h rfl)

/-- Whatever a reachable session builds is walked from, with fragments of its document. -/
theorem Builds.walked {definition : ExecutableDefinition} {b : BuiltSelections}
    (reachable : s.Reachable document) (h : s.Builds definition b) :
    ∃ built id rootName, Library s.view document built
      ∧ WalkedFrom s.view built ⟨id, definition⟩ rootName b := by
  have sound := reachable.sound
  cases h with
  | operation built =>
      rename_i o b
      have gives : (Build.operation s.view s.document o).Gives s.progress b
          (s.buildOperation o).2.progress := Prod.ext built rfl
      obtain ⟨same, walked⟩ := Build.walkedFrom_operation gives
      exact ⟨_, _, _, (sound.run (Build.keeps_operation s.view s.document o)).library, walked⟩
  | fragment built =>
      rename_i name f
      -- The fragment is in the library afterwards, whether this call built it or an earlier one.
      have library := (sound.run (Build.fragmentNamed_spec s.view s.document [] name).1).library
      exact library.walked f (NamedFragment.mem_of_find? (find?_buildFragment built)).1

/-- An operation that is built and passes a check, in a session at its beginning. -/
theorem exists_buildOperation (document : Document) (schema : Schema)
    (o : Sourced OperationDefinition) (check : BuiltSelections → Bool)
    (passes : ((start schema document 0).toOption.any fun s =>
      (s.buildOperation o).1.toOption.any fun b => check b.built) = true) :
    ∃ (s : Session) (b : Operation), s.Reachable document ∧ s.view.schema = schema
      ∧ (s.buildOperation o).1 = .ok b ∧ check b.built = true := by
  obtain ⟨s, started, passes⟩ := (Option.any_eq_true _ _).mp passes
  obtain ⟨b, built, passes⟩ := (Option.any_eq_true _ _).mp passes
  have started := eq_ok_of_toOption started
  refine ⟨s, b, .start started, ?_, eq_ok_of_toOption built, passes⟩
  obtain ⟨view, ofDocument, marked⟩ := bind_eq_ok.mp started
  obtain ⟨referenced, -, same⟩ := bind_eq_ok.mp ofDocument
  cases marked
  cases same
  rfl

/-- A build that succeeds with what passes a check, in a session at its beginning. -/
theorem exists_builds (document : Document) (schema : Schema) (o : Sourced OperationDefinition)
    (check : BuiltSelections → Bool)
    (passes : ((start schema document 0).toOption.any fun s =>
      (s.buildOperation o).1.toOption.any fun b => check b.built) = true) :
    ∃ (s : Session) (b : BuiltSelections), s.Reachable document ∧ s.view.schema = schema
      ∧ s.Builds (.operation o.definition) b ∧ check b = true := by
  obtain ⟨s, b, reachable, known, answer, passes⟩ :=
    exists_buildOperation document schema o check passes
  exact ⟨s, b.built, reachable, known, .operation answer, passes⟩

end Session

/-! ## Heroes -/

namespace Heroes

/-- A schema of heroes who have friends. -/
def schema : Schema where
  types := [⟨"Query", .object, [⟨none, "hero", [], .named "Hero", []⟩]⟩,
    ⟨"Hero", .object, [⟨none, "name", [], .named "String", []⟩,
      ⟨none, "friend", [], .named "Hero", []⟩]⟩,
    ⟨"String", .scalar, []⟩]
  roots := [(.query, "Query")]
  documentation := none

/-- A field with a hero. -/
def heroField (name : Name) (directives : List Directive) (ss : List Selection) : FieldSelection :=
  ⟨none, ⟨none, name, [], .named "Hero", []⟩, [], directives, ss⟩

/-- The name of a hero. -/
def nameField : FieldSelection :=
  ⟨none, ⟨none, "name", [], .named "String", []⟩, [], [], []⟩

/-- The directive that includes a selection when a variable is true. -/
def includedIf (name : Name) : Directive :=
  ⟨"include", [⟨"if", .var name⟩]⟩

/-- A view of the schema knows heroes to be composite. -/
theorem isComposite_hero {view : SchemaView} (h : view.schema = schema) :
    view.isComposite "Hero" = .ok true := by
  rw [SchemaView.isComposite, h]
  rfl

/-- A view of the schema knows names to be leaves. -/
theorem isComposite_string {view : SchemaView} (h : view.schema = schema) :
    view.isComposite "String" = .ok false := by
  rw [SchemaView.isComposite, h]
  rfl

/-- A query. -/
def query (ss : List Selection) : Sourced OperationDefinition :=
  ⟨⟨.query, none, [], [], "Query", ss⟩, none⟩

end Heroes
end SelectionGraph
