import SelectionGraph.Proofs.Direct.Faithful
import SelectionGraph.Proofs.Direct.Sites
import SelectionGraph.Proofs.Session.InProgress

/-!
# Sharing — each fragment is built once, and all refer to that build

* `BuiltSelections.Mentions` — the fragments that a definition refers to, at any depth;
* `Session.Binds`            — a session has the fragment of a handle under the handle's name;
* `Library.shares`           — what is mentioned is one of the fragments that were built;
* `Library.earlier`          — a fragment refers only to fragments before it;
* `Session.cases_of_holds`   — what an answer holds was built on the way, or is the fragment asked for;
* `Session.Gives`            — a session, asked some calls, answers one of them with a definition;
* `Session.Gives.walked`     — such a definition is walked from, and its spreads' fragments stay;
* `fragments_are_built_once_and_shared` — all of it after any calls.
-/

namespace SelectionGraph

variable {view : SchemaView} {document : Document} {built : List NamedFragment}

/-! ## Fragments that are mentioned -/

/-- A definition refers to a fragment: it lists the fragment, spreads it at any depth, or lists a
fragment that refers to it. -/
inductive BuiltSelections.Mentions : BuiltSelections → FragmentHandle → Prop
  | listed {b : BuiltSelections} {f : NamedFragment} (mem : f ∈ b.referenced) : Mentions b f.handle
  | spread {b : BuiltSelections} {set : SelectionSet} {s : NamedSpread}
      (within : b.rootField.selectionSet.Within set) (mem : s ∈ set.direct.namedFragments) :
      Mentions b s.fragment
  | through {b : BuiltSelections} {f : NamedFragment} {h : FragmentHandle} (mem : f ∈ b.referenced)
      (inner : Mentions f.built h) : Mentions b h

/-- A session answers with something that refers to a fragment, or with the fragment itself. -/
inductive Answer.Mentions : Answer → FragmentHandle → Prop
  | operation {o : Operation} {h : FragmentHandle} (refers : o.built.Mentions h) :
      Mentions (.operation (.ok o)) h
  | operations {os : List Operation} {o : Operation} {h : FragmentHandle} (mem : o ∈ os)
      (refers : o.built.Mentions h) : Mentions (.operations (.ok os)) h
  | itself {f : NamedFragment} : Mentions (.fragment (.ok f)) f.handle
  | fragment {f : NamedFragment} {h : FragmentHandle} (refers : f.built.Mentions h) :
      Mentions (.fragment (.ok f)) h

/-- An answer refers to what a definition in it refers to, or is the fragment itself. -/
theorem Answer.Mentions.cases {a : Answer} {h : FragmentHandle} (mentions : a.Mentions h) :
    (∃ b, a.Holds b ∧ b.Mentions h) ∨ ∃ f, a = .fragment (.ok f) ∧ f.handle = h := by
  cases mentions with
  | operation refers => exact Or.inl ⟨_, .operation, refers⟩
  | operations mem refers => exact Or.inl ⟨_, .operations mem, refers⟩
  | itself => exact Or.inr ⟨_, rfl, rfl⟩
  | fragment refers => exact Or.inl ⟨_, .fragment, refers⟩

theorem Answer.mentions_of_holds {a : Answer} {b : BuiltSelections} (holds : a.Holds b)
    {h : FragmentHandle} (mentions : b.Mentions h) : a.Mentions h := by
  cases holds with
  | operation => exact .operation mentions
  | operations mem => exact .operations mem mentions
  | fragment => exact .fragment mentions

/-- Under the name of a handle there is the fragment of the handle. -/
def FragmentHandle.BoundIn (fragments : List NamedFragment) (h : FragmentHandle) : Prop :=
  ∃ f, NamedFragment.find? fragments h.name = some f ∧ f.handle = h

theorem FragmentHandle.BoundIn.mono {fragments fragments' : List NamedFragment}
    {h : FragmentHandle} (bound : h.BoundIn fragments) (more : fragments <+: fragments') :
    h.BoundIn fragments' := by
  obtain ⟨f, found, same⟩ := bound
  exact ⟨f, NamedFragment.find?_mono more found, same⟩

theorem NamedFragment.handle_boundIn {f : NamedFragment}
    (found : NamedFragment.find? built f.name = some f) : f.handle.BoundIn built :=
  ⟨f, found, rfl⟩

/-- What a definition lists are fragments that were built, and it spreads only what it lists. -/
structure BuiltSelections.Shares (built : List NamedFragment) (b : BuiltSelections) : Prop where
  refers : b.Refers built
  known : ∀ set, b.rootField.selectionSet.Within set →
    ∀ s ∈ set.direct.namedFragments, s.fragment.KnownIn b.referenced

theorem BuiltSelections.Faithful.shares {type : Name} {ss : List Selection} {b : BuiltSelections}
    (h : b.Faithful view document type ss) (refers : b.Refers built) : b.Shares built where
  refers := refers
  known set within := by
    obtain ⟨_, _, _, _, _, _, _, known⟩ := h.tidy.within within
    exact known

/-- Whatever a definition refers to was built, if this holds of what is built. -/
theorem BuiltSelections.Mentions.boundIn (fragments : ∀ g ∈ built, g.built.Shares built)
    {b : BuiltSelections} {h : FragmentHandle} (mentions : b.Mentions h) (shares : b.Shares built) :
    h.BoundIn built := by
  induction mentions with
  | listed mem => exact NamedFragment.handle_boundIn (shares.refers _ mem)
  | spread within mem =>
      obtain ⟨f, listed, same⟩ := shares.known _ within _ mem
      rw [← same]
      exact NamedFragment.handle_boundIn (shares.refers f listed)
  | through mem _ ih =>
      exact ih (fragments _ (NamedFragment.mem_of_find? (shares.refers _ mem)).1)

theorem Library.shares (library : Library view document built) :
    ∀ g ∈ built, g.built.Shares built :=
  fun g mem => (library.faithful g mem).shares (library.closed g mem)

theorem WalkedFrom.shares (library : Library view document built) {source : SourceDefinition}
    {rootName : Name} {b : BuiltSelections} (h : WalkedFrom view built source rootName b) :
    b.Shares built := by
  obtain ⟨faithful, refers⟩ := h.faithful library.inlined library.closed
  exact faithful.shares refers

/-! ## The order of fragments -/

/-- A fragment was walked with the fragments before it, which are fragments of the document too. -/
theorem Library.earlier (h : Library view document built) {before rest : List NamedFragment}
    {f : NamedFragment} (split : built = before ++ f :: rest) :
    f.built.Refers before := by
  induction h generalizing rest with
  | nil => simp at split
  | @snoc built g name text id b library _ _ walked ih =>
      rcases List.eq_nil_or_concat rest with rfl | ⟨rest, last, rfl⟩
      · -- The fragment is the one that was finished last.
        obtain ⟨rfl, same⟩ := List.append_inj' split rfl
        cases same
        exact (walked.faithful library.inlined library.closed).2
      · have shorter : built ++ [⟨g.definition, b, text⟩] = (before ++ f :: rest) ++ [last] := by
          rw [split]
          simp
        exact ih (List.append_inj' shorter rfl).1

/-! ## What steps give -/

theorem BuiltSelections.Shares.mono {built' : List NamedFragment} {b : BuiltSelections}
    (h : b.Shares built) (more : built <+: built') : b.Shares built' where
  refers r listed := NamedFragment.find?_mono more (h.refers r listed)
  known := h.known

namespace Build

/-- The fragments of a document that were built are still such when an operation is built. -/
theorem library_operation {o : Sourced OperationDefinition} {p p' : Progress} {b : Operation}
    (library : Library view document p.fragments) (gives : (operation view document o).Gives p b p') :
    Library view document p'.fragments := by
  have advances := keeps_operation view document o p
  rw [show _ = _ from gives] at advances
  exact advances.2.1 library

theorem shares_operation {o : Sourced OperationDefinition} {p p' : Progress} {b : Operation}
    (library : Library view document p.fragments) (gives : (operation view document o).Gives p b p') :
    b.built.Shares p'.fragments :=
  (walkedFrom_operation gives).2.shares (library_operation library gives)

end Build

/-! ## Sessions -/

namespace Session

/-- A session has the fragment of a handle under the handle's name. -/
def Binds (s : Session) (h : FragmentHandle) : Prop :=
  h.BoundIn s.progress.fragments

variable {s : Session}

/-- A call keeps what was built. -/
theorem Sound.call (sound : s.Sound document) (c : Call) :
    (s.call c).2.Sound document ∧ s.progress.fragments <+: (s.call c).2.progress.fragments := by
  have operation := Build.keeps_operation s.view s.document
  cases c with
  | operation o => exact ⟨sound.run (operation o), (operation o s.progress).1⟩
  | operationNamed name =>
      rw [Session.call, buildOperationNamed]
      cases s.document.operation? name with
      | some o => exact ⟨sound.run (operation o), (operation o s.progress).1⟩
      | none => exact ⟨sound, List.prefix_refl _⟩
  | all =>
      have operations := Build.keeps_operations s.view s.document s.document.operations
      exact ⟨sound.run operations, (operations s.progress).1⟩
  | fragment name =>
      have fragment := (Build.fragmentNamed_spec s.view s.document [] name).1
      exact ⟨sound.run fragment, (fragment s.progress).1⟩

theorem Sound.after (calls : List Call) : ∀ s : Session, s.Sound document →
    (s.after calls).Sound document
      ∧ s.progress.fragments <+: (s.after calls).progress.fragments := by
  induction calls with
  | nil => exact fun s sound => ⟨sound, List.prefix_refl _⟩
  | cons c calls ih =>
      intro s sound
      obtain ⟨sound₁, more₁⟩ := sound.call c
      obtain ⟨sound₂, more₂⟩ := ih _ sound₁
      exact ⟨sound₂, more₁.trans more₂⟩

/-- What is in the answer to a call was built for an operation on the way, or is the fragment that was
asked for. -/
theorem cases_of_holds {c : Call} {b : BuiltSelections} (holds : (s.call c).1.Holds b) :
    (∃ o p p' o', Build.Advances s.view s.document [] s.progress p
        ∧ (Build.operation s.view s.document o).Gives p o' p'
        ∧ Build.Advances s.view s.document [] p' (s.call c).2.progress ∧ o'.built = b)
      ∨ ∃ name f, c = .fragment name ∧ (s.buildFragment name).1 = .ok f ∧ f.built = b := by
  have order := Build.advances_order s.view s.document []
  have alone {o : Sourced OperationDefinition} {o' : Operation}
      (answer : (s.buildOperation o).1 = .ok o') :
      (Build.operation s.view s.document o).Gives s.progress o' (s.buildOperation o).2.progress :=
    Prod.ext answer rfl
  -- With the answer as a variable, its cases are those of what answers hold.
  cases c with
  | operation o =>
      change Answer.Holds (.operation (s.buildOperation o).1) b at holds
      generalize answer : (s.buildOperation o).1 = r at holds
      cases holds
      exact Or.inl ⟨o, _, _, _, order.refl _, alone answer, order.refl _, rfl⟩
  | operationNamed name =>
      change Answer.Holds (.operation (s.buildOperationNamed name).1) b at holds
      change (∃ o p p' o', _ ∧ _ ∧ Build.Advances s.view s.document [] p'
        (s.buildOperationNamed name).2.progress ∧ _) ∨ _
      rw [buildOperationNamed] at holds ⊢
      cases found : s.document.operation? name with
      | none =>
          rw [found] at holds
          cases holds
      | some o =>
          rw [found] at holds
          dsimp only at holds ⊢
          generalize answer : (s.buildOperation o).1 = r at holds
          cases holds
          exact Or.inl ⟨o, _, _, _, order.refl _, alone answer, order.refl _, rfl⟩
  | all =>
      change Answer.Holds (.operations s.buildAll.1) b at holds
      generalize answer : s.buildAll.1 = r at holds
      cases holds with
      | operations mem =>
          obtain ⟨o, -, p, p', before, gives, after⟩ :=
            Build.gives_operations (Prod.ext answer rfl) _ mem
          exact Or.inl ⟨o, p, p', _, before, gives, after, rfl⟩
  | fragment name =>
      change Answer.Holds (.fragment (s.buildFragment name).1) b at holds
      generalize answer : (s.buildFragment name).1 = r at holds
      cases holds
      exact Or.inr ⟨name, _, rfl, answer, rfl⟩

theorem fragment_of_call {c : Call} {f : NamedFragment}
    (answered : (s.call c).1 = .fragment (.ok f)) :
    ∃ name, c = .fragment name ∧ (s.buildFragment name).1 = .ok f := by
  cases c with
  | fragment name => exact ⟨name, rfl, Answer.fragment.inj answered⟩
  | operation o => exact Answer.noConfusion answered
  | operationNamed name => exact Answer.noConfusion answered
  | all => exact Answer.noConfusion answered

/-- Whatever the answer to a call refers to is a fragment that the session has afterwards. -/
theorem Sound.binds (sound : s.Sound document) {c : Call} {h : FragmentHandle}
    (mentions : (s.call c).1.Mentions h) : (s.call c).2.Binds h := by
  obtain ⟨⟨-, after⟩, -⟩ := sound.call c
  have library : Library s.view s.document s.progress.fragments := sound.same ▸ sound.library
  rcases mentions.cases with ⟨b, holds, refers⟩ | ⟨f, itself, rfl⟩
  · rcases cases_of_holds holds with ⟨o, p, p', o', before, gives, later, rfl⟩
      | ⟨name, f, rfl, answer, rfl⟩
    · have shares := Build.shares_operation (before.2.1 library) gives
      exact refers.boundIn after.shares (shares.mono later.1)
    · have mem := (NamedFragment.mem_of_find? (find?_buildFragment answer)).1
      exact refers.boundIn after.shares (after.shares _ mem)
  · obtain ⟨name, rfl, answer⟩ := fragment_of_call itself
    have found := find?_buildFragment answer
    exact NamedFragment.handle_boundIn ((NamedFragment.mem_of_find? found).2 ▸ found)

/-- Fragments of different names have different identities. -/
theorem Remembers.identity_ne {identity : Part → DefinitionId}
    (inj : Function.Injective identity) (remembers : s.Remembers identity) {h h' : FragmentHandle}
    (binds : s.Binds h) (binds' : s.Binds h') (apart : h.name ≠ h'.name) :
    h.identity ≠ h'.identity := by
  obtain ⟨ρ, assigns⟩ := remembers.assigned
  obtain ⟨f, found, rfl⟩ := binds
  obtain ⟨f', found', rfl⟩ := binds'
  intro same
  -- The identities that were given tell names apart, and they are renamed one to one.
  refine apart (Part.fragment.inj (inj ?_))
  calc identity (.fragment f.name)
      = ρ f.identity.definition := (assigns.of_mem (NamedFragment.mem_of_find? found).1).symm
    _ = ρ f'.identity.definition := congrArg (fun i => ρ i.definition) same
    _ = identity (.fragment f'.name) := assigns.of_mem (NamedFragment.mem_of_find? found').1

end Session

/-! ## Definitions that a session gives -/

namespace Session

variable {s : Session} {b : BuiltSelections}

/-- A session that is asked some calls, one after the other, answers one of them with what a definition
was built to. -/
def Gives (s : Session) (calls : List Call) (b : BuiltSelections) : Prop :=
  ∃ before c later, calls = before ++ c :: later ∧ ((s.after before).call c).1.Holds b

/-- Whatever is in the answer to a call is walked from, with fragments of the document. -/
theorem Sound.walked (sound : s.Sound document) {c : Call} (holds : (s.call c).1.Holds b) :
    ∃ built id d rootName, Library s.view document built
      ∧ WalkedFrom s.view built ⟨id, d⟩ rootName b := by
  obtain ⟨rfl, library⟩ := sound
  rcases cases_of_holds holds with ⟨o, p, p', o', before, gives, -, rfl⟩
    | ⟨name, f, rfl, answer, rfl⟩
  · exact ⟨_, _, _, _, Build.library_operation (before.2.1 library) gives,
      (Build.walkedFrom_operation gives).2⟩
  · have after : (s.buildFragment name).2.Sound s.document :=
      Sound.run ⟨rfl, library⟩ (Build.fragmentNamed_spec s.view s.document [] name).1
    obtain ⟨earlier, id, rootName, library, walked⟩ :=
      after.library.walked f (NamedFragment.mem_of_find? (find?_buildFragment answer)).1
    exact ⟨earlier, id, _, rootName, library, walked⟩

/-- A definition that a session gives is walked from, and the session has the fragments of its spreads in
the end. -/
theorem Gives.walked {calls : List Call} (gives : s.Gives calls b) (sound : s.Sound document) :
    (∃ built id d rootName, Library s.view document built
        ∧ WalkedFrom s.view built ⟨id, d⟩ rootName b)
      ∧ ∀ set, b.rootField.selectionSet.Within set → ∀ x ∈ set.direct.namedFragments,
        (s.after calls).Binds x.fragment := by
  obtain ⟨before, c, later, rfl, holds⟩ := gives
  have earlier := (Sound.after before s sound).1
  constructor
  · have walked := earlier.walked holds
    rwa [s.view_after] at walked
  · intro set within x mem
    have binds := earlier.binds (Answer.mentions_of_holds holds (.spread within mem))
    rw [after_append]
    exact binds.mono (Sound.after later _ (earlier.call c).1).2

end Session

/-! ## After any calls -/

/-- After any calls, whether they succeeded or failed, no fragment is in progress, in a session that
keeps those itself and does what sessions do; a fragment stays bound to its name; whatever the answer
to a call refers to is, and stays, the fragment that is bound to its name; a fragment lists only
fragments that were built before it; and fragments of different names have different identities. -/
theorem fragments_are_built_once_and_shared (schema : Schema) (document : Document) (next : Nat)
    (s : Session) (started : Session.start schema document next = .ok s) (calls : List Call) :
    let t := s.after calls
    (∀ rest, Tracked.after s.view s.document rest ⟨s.progress, []⟩ calls = ⟨t.progress, []⟩
        ∧ ∀ c, Tracked.call s.view s.document rest ⟨t.progress, []⟩ c
          = ((t.call c).1, ⟨(t.call c).2.progress, []⟩))
      ∧ (∀ name f, t.builtFragment? name = some f →
          ∀ later, (t.after later).builtFragment? name = some f)
      ∧ (∀ c h, (t.call c).1.Mentions h → ∀ later, ((t.call c).2.after later).Binds h)
      ∧ (∀ before f rest, t.progress.fragments = before ++ f :: rest →
          ∀ g ∈ f.built.referenced, g ∈ before)
      ∧ ∀ h h', t.Binds h → t.Binds h' → h.name ≠ h'.name → h.identity ≠ h'.identity := by
  intro t
  obtain ⟨identity, inj⟩ := exists_identity
  obtain ⟨remembers, view, document⟩ := Session.after_remembers inj calls s
    (Session.start_remembers started)
  have sound : t.Sound _ := (Session.Sound.after calls s (Session.Reachable.start started).sound).1
  refine ⟨fun rest => ⟨Tracked.after_eq calls s, fun c => ?_⟩, ?_, ?_, ?_, ?_⟩
  · rw [← view, ← document]
    exact Tracked.call_eq t c
  · intro name f bound later
    exact NamedFragment.find?_mono (Session.Sound.after later t sound).2 bound
  · intro c h mentions later
    exact (sound.binds mentions).mono (Session.Sound.after later _ (sound.call c).1).2
  · intro before f rest split g listed
    exact (NamedFragment.mem_of_find? (sound.library.earlier split g listed)).1
  · intro h h' binds binds' apart
    exact remembers.identity_ne inj binds binds' apart

/-- A fragment that was built after one that spreads itself stays the fragment of its name, and
nothing is in progress. -/
theorem heros_friend_is_shared :
    let friend := Heroes.heroField "friend" [] [.field Heroes.nameField]
    let document : Document :=
      ⟨[Heroes.query [.field (Heroes.heroField "hero" [] [.fragmentSpread "Friendly" []])]],
        [⟨⟨"Friendly", "Hero", [], [.field friend]⟩, none⟩,
          ⟨⟨"Circle", "Hero", [], [.fragmentSpread "Circle" []]⟩, none⟩]⟩
    let calls := [Call.fragment "Circle", Call.all]
    ∃ (s : Session) (f : NamedFragment), Session.start Heroes.schema document 0 = .ok s
      ∧ (s.buildFragment "Circle").1.toOption.isNone = true
      ∧ (s.after calls).builtFragment? "Friendly" = some f
      ∧ (∀ rest, (Tracked.after s.view s.document rest ⟨s.progress, []⟩ calls).inProgress = [])
      ∧ ∀ later, ((s.after calls).after later).builtFragment? "Friendly" = some f := by
  intro friend document calls
  obtain ⟨s, started, check⟩ := (Option.any_eq_true _ _).mp
    (show ((Session.start Heroes.schema document 0).toOption.any fun s =>
      (s.buildFragment "Circle").1.toOption.isNone
        && ((s.after calls).builtFragment? "Friendly").isSome) = true by decide +kernel)
  obtain ⟨fails, built⟩ := Bool.and_eq_true_iff.mp check
  obtain ⟨f, bound⟩ := Option.isSome_iff_exists.mp built
  have started := eq_ok_of_toOption started
  obtain ⟨tracked, stays, -⟩ :=
    fragments_are_built_once_and_shared Heroes.schema document 0 s started calls
  refine ⟨s, f, started, fails, bound, fun rest => ?_, stays "Friendly" f bound⟩
  rw [(tracked rest).1]

end SelectionGraph
