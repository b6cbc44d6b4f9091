import Mathlib.Data.Countable.Basic
import Mathlib.Logic.Equiv.List
import SelectionGraph.Proofs.Session.Afresh
import SelectionGraph.Session.Identifier

/-!
# History — a session does not depend on what it was asked before

* `Session.call`, `Session.after` — the calls of a session, one and many;
* `Answer.rename`                 — an answer with other identities;
* `Build.operation_afresh`, `Build.operations_afresh` — operations come to what they are afresh;
* `Session.call_afresh`           — so do all answers, and the session remembers rightly after them;
* `sessions_forget_their_history` — two sessions at any point answer alike, up to identities.
-/

namespace SelectionGraph

/-! ## Calls -/

/-- What a session can be asked to build. -/
inductive Call
  | operation (o : Sourced OperationDefinition)
  | operationNamed (name : Option Name)
  | all
  | fragment (name : Name)

/-- What a session answers. -/
inductive Answer
  | operation (r : Except BuildError Operation)
  | operations (r : Except BuildError (List Operation))
  | fragment (r : Except BuildError NamedFragment)

namespace Answer

def rename (ρ : DefinitionId → DefinitionId) : Answer → Answer
  | operation r => operation (r.map (Operation.rename ρ))
  | operations r => operations (r.map fun os => os.map (Operation.rename ρ))
  | fragment r => fragment (r.map (NamedFragment.rename ρ))

/-- The identifiers of the operations in an answer. -/
def identifiers : Answer → List OperationIdentifier
  | operation (.ok o) => [o.identifier]
  | operations (.ok os) => os.map Operation.identifier
  | _ => []

end Answer

/-- An answer holds what an operation, one of some operations, or a fragment was built to. -/
inductive Answer.Holds : Answer → BuiltSelections → Prop
  | operation {o : Operation} : Holds (.operation (.ok o)) o.built
  | operations {os : List Operation} {o : Operation} (mem : o ∈ os) :
      Holds (.operations (.ok os)) o.built
  | fragment {f : NamedFragment} : Holds (.fragment (.ok f)) f.built

namespace Session

def call (s : Session) : Call → Answer × Session
  | .operation o => ((s.buildOperation o).map Answer.operation id)
  | .operationNamed name => ((s.buildOperationNamed name).map Answer.operation id)
  | .all => (s.buildAll.map Answer.operations id)
  | .fragment name => ((s.buildFragment name).map Answer.fragment id)

/-- The session after some calls, whether they succeeded or failed. -/
def after (s : Session) (calls : List Call) : Session :=
  calls.foldl (fun s c => (s.call c).2) s

end Session

/-! ## Identifiers -/

theorem Operation.identifier_rename (ρ : DefinitionId → DefinitionId) (o : Operation) :
    (o.rename ρ).identifier = o.identifier := by
  have texts : (o.rename ρ).built.referenced.map NamedFragment.source
      = o.built.referenced.map NamedFragment.source := by
    rw [rename, BuiltSelections.referenced_rename, List.map_map]
    rfl
  rw [identifier, identifier, texts]
  rfl

theorem Answer.identifiers_rename (ρ : DefinitionId → DefinitionId) (a : Answer) :
    (a.rename ρ).identifiers = a.identifiers := by
  rcases a with (e | o) | (e | os) | r
  · rfl
  · exact congrArg (fun i => [i]) (o.identifier_rename ρ)
  · rfl
  · change (os.map (Operation.rename ρ)).map Operation.identifier = os.map Operation.identifier
    rw [List.map_map]
    exact List.map_congr_left fun o _ => o.identifier_rename ρ
  · rfl

theorem Answer.rename_id (a : Answer) : a.rename id = a := by
  rcases a with (e | o) | (e | os) | (e | f)
  · rfl
  · exact congrArg (fun o => Answer.operation (.ok o)) o.rename_id
  · rfl
  · have same : Operation.rename id = id := funext Operation.rename_id
    change Answer.operations (.ok (os.map (Operation.rename id))) = _
    rw [same, List.map_id]
  · rfl
  · exact congrArg (fun f => Answer.fragment (.ok f)) f.rename_id

theorem Answer.rename_rename (ρ σ : DefinitionId → DefinitionId) (a : Answer) :
    (a.rename σ).rename ρ = a.rename (ρ ∘ σ) := by
  rcases a with (e | o) | (e | os) | (e | f)
  · rfl
  · exact congrArg (fun o => Answer.operation (.ok o)) (o.rename_rename ρ σ)
  · rfl
  · change Answer.operations (.ok ((os.map (Operation.rename σ)).map (Operation.rename ρ))) = _
    rw [List.map_map]
    have same : Operation.rename ρ ∘ Operation.rename σ = Operation.rename (ρ ∘ σ) :=
      funext fun o => o.rename_rename ρ σ
    rw [same]
    rfl
  · rfl
  · exact congrArg (fun f => Answer.fragment (.ok f)) (f.rename_rename ρ σ)

/-! ## Operations -/

namespace Build

/-- An operation with fragments built afresh. -/
def operationAfresh (identity : Part → DefinitionId) (view : SchemaView) (document : Document)
    (place : Nat) (o : Sourced OperationDefinition) : Except BuildError Operation :=
  (apart view (afresh identity view document [])
    ⟨identity (.operation place), .operation o.definition⟩ operationRoot).map fun built =>
      ⟨o.definition, built, sourceOf OperationDefinition.text o⟩

/-- Operations with fragments built afresh, up to the first that fails. -/
def operationsAfresh (identity : Part → DefinitionId) (view : SchemaView) (document : Document) :
    Nat → List (Sourced OperationDefinition) → Except BuildError (List Operation)
  | _, [] => .ok []
  | place, o :: os => do
      let first ← operationAfresh identity view document place o
      let rest ← operationsAfresh identity view document (place + 1) os
      return first :: rest

variable {identity : Part → DefinitionId} {view : SchemaView} {document : Document}

/-- An operation comes to what it is afresh, under every renaming that gives it its identity. -/
theorem operation_afresh (inj : Function.Injective identity) {o : Sourced OperationDefinition}
    {p p' : Progress} {r : Except BuildError Operation}
    (remembers : Remembers identity view document p)
    (run : (operation view document o).result p = (r, p')) :
    Remembers identity view document p'
      ∧ Numbers { p with nextDefinition := p.nextDefinition + 1 } p'
      ∧ (∀ b, r = .ok b → b.built.rootField.id.definition = ⟨p.nextDefinition⟩)
      ∧ ∀ (ρ : Equiv.Perm DefinitionId) (place : Nat),
        Assigns identity ρ ((⟨p.nextDefinition⟩, .operation place) :: NamedFragment.parts p'.fragments) →
        operationAfresh identity view document place o = r.map (Operation.rename ρ) := by
  have prepared : Prepared identity view document [] p := ⟨remembers, by simp [Idle]⟩
  have numbers := @numbers_selections view _ (numbers_fragmentNamed view document [])
    (.operation o.definition) operationRoot o.definition.selections p
  rw [operation, result_bind] at run
  rcases built : (selections view (fragmentNamed view document []) (.operation o.definition)
    operationRoot o.definition.selections).result p with ⟨r', p''⟩
  rw [built] at run numbers
  obtain ⟨⟨after, idle⟩, answers⟩ := (recalls inj []).selections _ _ prepared built
  have ended : p'' = p' ∧ r = r'.map fun b =>
      ⟨o.definition, b, sourceOf OperationDefinition.text o⟩ := by
    rcases r' with e | b <;> cases run <;> exact ⟨rfl, rfl⟩
  obtain ⟨rfl, rfl⟩ := ended
  refine ⟨after, numbers, ?_, ?_⟩
  · rintro b same
    cases r' with
    | error e => cases same
    | ok b' =>
        cases same
        exact definition_selections built
  · intro ρ place assigns
    have own : ρ ⟨p.nextDefinition⟩ = identity (.operation place) := assigns _ (List.mem_cons_self ..)
    have gives := answers ρ [] ⟨assigns.mono fun x => List.mem_cons_of_mem _, idle⟩
    rw [own] at gives
    rw [operationAfresh]
    cases r' with
    | error e =>
        rw [show apart _ _ _ _ = _ from gives rfl]
        rfl
    | ok b =>
        rw [show apart _ _ _ _ = _ from gives]
        rfl

end Build

/-- The parts that operations are which are built one after the other. -/
def Operation.parts : Nat → List Operation → List (DefinitionId × Part)
  | _, [] => []
  | place, o :: os => (o.built.rootField.id.definition, .operation place) :: parts (place + 1) os

namespace Build

variable {identity : Part → DefinitionId} {view : SchemaView} {document : Document}

/-- Operations that are built come to what they are afresh, under every renaming that gives each of
them its identity; and there is one. -/
structure BuiltAfresh (identity : Part → DefinitionId) (view : SchemaView) (document : Document)
    (place : Nat) (os : List (Sourced OperationDefinition)) (p p' : Progress) (bs : List Operation) :
    Prop where
  number : ∀ x ∈ Operation.parts place bs, p.nextDefinition ≤ x.1.number
  ordered : ∀ x ∈ Operation.parts place bs, ∃ later, place ≤ later ∧ x.2 = .operation later
  assigned : ∃ ρ : Equiv.Perm DefinitionId,
    Assigns identity ρ (Operation.parts place bs ++ NamedFragment.parts p'.fragments)
  afresh : ∀ ρ : Equiv.Perm DefinitionId,
    Assigns identity ρ (Operation.parts place bs ++ NamedFragment.parts p'.fragments) →
    operationsAfresh identity view document place os = .ok (bs.map (Operation.rename ρ))

theorem part_ne_operation {fragments : List NamedFragment} {place : Nat} :
    ∀ x ∈ NamedFragment.parts fragments, x.2 ≠ .operation place := by
  intro x mem same
  obtain ⟨g, -, rfl⟩ := List.mem_map.mp mem
  cases same

/-- There is a renaming that gives an operation its identity. -/
theorem exists_assigns (inj : Function.Injective identity) {p p' : Progress}
    (before : Remembers identity view document p) (after : Remembers identity view document p')
    (numbers : Numbers { p with nextDefinition := p.nextDefinition + 1 } p') (place : Nat) :
    ∃ ρ : Equiv.Perm DefinitionId, Assigns identity ρ
      ((⟨p.nextDefinition⟩, .operation place) :: NamedFragment.parts p'.fragments) := by
  obtain ⟨ρ, assigns⟩ := after.assigned
  exact assigns.exists_insert inj (before.number_ne numbers) part_ne_operation

/-- One more operation before others. -/
theorem BuiltAfresh.cons (inj : Function.Injective identity) {place : Nat}
    {o : Sourced OperationDefinition} {os : List (Sourced OperationDefinition)} {p p₁ p' : Progress}
    {b : Operation} {bs : List Operation} (before : Remembers identity view document p)
    (more : p₁.fragments <+: p'.fragments)
    (numbers : Numbers { p with nextDefinition := p.nextDefinition + 1 } p₁) (numbers' : Numbers p₁ p')
    (bears : b.built.rootField.id.definition = ⟨p.nextDefinition⟩)
    (first : ∀ (ρ : Equiv.Perm DefinitionId) (place : Nat),
      Assigns identity ρ ((⟨p.nextDefinition⟩, .operation place) :: NamedFragment.parts p₁.fragments) →
      operationAfresh identity view document place o = .ok (b.rename ρ))
    (rest : BuiltAfresh identity view document (place + 1) os p₁ p' bs) :
    BuiltAfresh identity view document place (o :: os) p p' (b :: bs) where
  number := by
    refine List.forall_mem_cons.mpr ⟨?_, fun x mem => ?_⟩
    · exact Nat.le_of_eq (congrArg DefinitionId.number bears.symm)
    · exact Nat.le_trans (Nat.le_of_succ_le numbers.later) (rest.number x mem)
  ordered := by
    refine List.forall_mem_cons.mpr ⟨⟨place, Nat.le_refl _, rfl⟩, fun x mem => ?_⟩
    obtain ⟨later, le, same⟩ := rest.ordered x mem
    exact ⟨later, Nat.le_of_succ_le le, same⟩
  assigned := by
    obtain ⟨ρ, assigns⟩ := rest.assigned
    rw [Operation.parts, bears, List.cons_append]
    refine assigns.exists_insert inj ?_ ?_
    · intro x mem
      rcases List.mem_append.mp mem with later | fragment
      · intro same
        have number := rest.number x later
        rw [same] at number
        exact absurd (Nat.lt_of_lt_of_le numbers.later number) (Nat.lt_irrefl _)
      · exact before.number_ne (numbers_order.trans numbers numbers') x fragment
    · intro x mem same
      rcases List.mem_append.mp mem with later | fragment
      · obtain ⟨next, le, isNext⟩ := rest.ordered x later
        cases same.symm.trans isNext
        exact absurd le (Nat.not_succ_le_self _)
      · exact part_ne_operation x fragment same
  afresh ρ assigns := by
    rw [Operation.parts, bears, List.cons_append] at assigns
    obtain ⟨own, others⟩ := List.forall_mem_cons.mp assigns
    have fragments : Assigns identity ρ (NamedFragment.parts p₁.fragments) :=
      Assigns.of_prefix (Assigns.mono others fun x => List.mem_append_right _) more
    rw [operationsAfresh, first ρ place (List.forall_mem_cons.mpr ⟨own, fragments⟩),
      rest.afresh ρ others]
    rfl

/-- Operations that are built one after the other come to what they are afresh, or fail as they do
afresh.  The induction is on the operations. -/
theorem operations_afresh (inj : Function.Injective identity)
    (os : List (Sourced OperationDefinition)) :
    ∀ (place : Nat) (p p' : Progress) (r : Except BuildError (List Operation)),
      Remembers identity view document p →
      (os.mapM (operation view document)).result p = (r, p') →
      Remembers identity view document p' ∧ Numbers p p'
        ∧ (∀ e, r = .error e → operationsAfresh identity view document place os = .error e)
        ∧ ∀ bs, r = .ok bs → BuiltAfresh identity view document place os p p' bs := by
  rw [← List.mapM'_eq_mapM]
  induction os with
  | nil =>
      intro place p p' r remembers run
      cases run
      refine ⟨remembers, numbers_order.refl p, nofun, ?_⟩
      rintro bs ⟨⟩
      exact ⟨nofun, nofun, remembers.assigned, fun ρ _ => rfl⟩
  | cons o os ih =>
      intro place p p' r remembers run
      rw [List.mapM'_cons, result_bind] at run
      rcases first : (operation view document o).result p with ⟨e | b, p₁⟩
      · rw [first] at run
        cases run
        obtain ⟨after, numbers, -, gives⟩ := operation_afresh inj remembers first
        obtain ⟨ρ, assigns⟩ := exists_assigns inj remembers after numbers place
        refine ⟨after, numbers.taking, ?_, nofun⟩
        rintro _ ⟨⟩
        rw [operationsAfresh, gives ρ place assigns]
        rfl
      · rw [first] at run
        obtain ⟨after, numbers, bears, gives⟩ := operation_afresh inj remembers first
        dsimp only at run
        rw [result_bind] at run
        rcases later : (os.mapM' (operation view document)).result p₁ with ⟨e | bs, p₂⟩
        · rw [later] at run
          cases run
          obtain ⟨last, numbers', fails, -⟩ := ih (place + 1) _ _ _ after later
          obtain ⟨ρ, assigns⟩ := exists_assigns inj remembers after numbers place
          refine ⟨last, numbers_order.trans numbers.taking numbers', ?_, nofun⟩
          rintro _ ⟨⟩
          rw [operationsAfresh, gives ρ place assigns, fails e rfl]
          rfl
        · rw [later] at run
          cases run
          obtain ⟨last, numbers', -, builds⟩ := ih (place + 1) _ _ _ after later
          refine ⟨last, numbers_order.trans numbers.taking numbers', nofun, ?_⟩
          rintro _ ⟨⟩
          have more : p₁.fragments <+: p'.fragments := by
            have advances := keeps_operations view document os p₁
            rw [← List.mapM'_eq_mapM, later] at advances
            exact advances.1
          exact (builds bs rfl).cons inj remembers more numbers numbers' (bears b rfl) gives

end Build

/-! ## Sessions -/

/-- There are enough identities for all parts. -/
theorem exists_identity : ∃ identity : Part → DefinitionId, Function.Injective identity := by
  let code : Part → List Nat ⊕ Nat
    | .fragment name => .inl (name.toList.map Char.toNat)
    | .operation place => .inr place
  have codes : Function.Injective code := by
    rintro (name | place) (name' | place') same
    · have inj : Function.Injective Char.toNat := fun _ _ => Char.toNat_inj.mp
      have chars := List.map_injective_iff.mpr inj (Sum.inl.inj same)
      rw [String.toList_inj.mp chars]
    · cases same
    · cases same
    · rw [Sum.inr.inj same]
  obtain ⟨number, numbers⟩ := exists_injective_nat (List Nat ⊕ Nat)
  refine ⟨fun part => ⟨number (code part)⟩, fun part part' same => codes (numbers ?_)⟩
  exact congrArg DefinitionId.number same

namespace Session

/-- What a session answers that builds everything afresh. -/
def answerAfresh (identity : Part → DefinitionId) (view : SchemaView) (document : Document) :
    Call → Answer
  | .operation o => .operation (Build.operationAfresh identity view document 0 o)
  | .operationNamed name =>
      match document.operation? name with
      | some o => .operation (Build.operationAfresh identity view document 0 o)
      | none => .operation (.error (.unknownOperation name))
  | .all => .operations (Build.operationsAfresh identity view document 0 document.operations)
  | .fragment name => .fragment (Build.afresh identity view document [] name)

variable {identity : Part → DefinitionId} {s : Session}

/-- A session that remembers rightly goes on to do so. -/
def Remembers (identity : Part → DefinitionId) (s : Session) : Prop :=
  SelectionGraph.Remembers identity s.view s.document s.progress

theorem buildOperation_afresh (inj : Function.Injective identity) (remembers : s.Remembers identity)
    (o : Sourced OperationDefinition) :
    (s.buildOperation o).2.Remembers identity ∧ ∃ ρ : Equiv.Perm DefinitionId,
      (s.buildOperation o).1.map (Operation.rename ρ)
        = Build.operationAfresh identity s.view s.document 0 o := by
  obtain ⟨after, numbers, -, gives⟩ := Build.operation_afresh inj remembers
    (show (Build.operation s.view s.document o).result s.progress
      = ((s.buildOperation o).1, (s.buildOperation o).2.progress) from rfl)
  obtain ⟨ρ, assigns⟩ := Build.exists_assigns inj remembers after numbers 0
  exact ⟨after, ρ, (gives ρ 0 assigns).symm⟩

/-- What a session answers is, renamed, what it answers that builds everything afresh. -/
theorem call_afresh (inj : Function.Injective identity) (remembers : s.Remembers identity) (c : Call) :
    (s.call c).2.Remembers identity ∧ ∃ ρ : Equiv.Perm DefinitionId,
      (s.call c).1.rename ρ = answerAfresh identity s.view s.document c := by
  cases c with
  | operation o =>
      obtain ⟨after, ρ, same⟩ := buildOperation_afresh inj remembers o
      exact ⟨after, ρ, congrArg Answer.operation same⟩
  | operationNamed name =>
      cases found : s.document.operation? name with
      | some o =>
          obtain ⟨after, ρ, same⟩ := buildOperation_afresh inj remembers o
          rw [call, buildOperationNamed, answerAfresh, found]
          exact ⟨after, ρ, congrArg Answer.operation same⟩
      | none =>
          rw [call, buildOperationNamed, answerAfresh, found]
          exact ⟨remembers, Equiv.refl _, rfl⟩
  | all =>
      have run : (s.document.operations.mapM (Build.operation s.view s.document)).result s.progress
        = (s.buildAll.1, s.buildAll.2.progress) := rfl
      obtain ⟨after, -, fails, builds⟩ := Build.operations_afresh inj _ 0 _ _ _ remembers run
      refine ⟨after, ?_⟩
      change ∃ ρ : Equiv.Perm DefinitionId, (Answer.operations s.buildAll.1).rename ρ = _
      cases answer : s.buildAll.1 with
      | error e =>
          rw [answerAfresh, fails e answer]
          exact ⟨Equiv.refl _, rfl⟩
      | ok bs =>
          have built := builds bs answer
          obtain ⟨ρ, assigns⟩ := built.assigned
          rw [answerAfresh, built.afresh ρ assigns]
          exact ⟨ρ, rfl⟩
  | fragment name =>
      have run : (Build.fragmentNamed s.view s.document [] name).result s.progress
        = ((s.buildFragment name).1, (s.buildFragment name).2.progress) := rfl
      have idle : ∀ fragments, Idle [] fragments := fun _ => nofun
      obtain ⟨after, fails⟩ := Build.recalls inj [] name s.progress remembers (idle _)
      rw [run] at after fails
      refine ⟨after, ?_⟩
      change ∃ ρ : Equiv.Perm DefinitionId, (Answer.fragment (s.buildFragment name).1).rename ρ = _
      cases answer : (s.buildFragment name).1 with
      | error e =>
          rw [answerAfresh, fails e answer]
          exact ⟨Equiv.refl _, rfl⟩
      | ok g =>
          have spec := (Build.fragmentNamed_spec s.view s.document [] name).2
          obtain ⟨mem, named⟩ := NamedFragment.mem_of_find?
            (spec _ _ _ (run.trans (congrArg (·, _) answer)))
          obtain ⟨ρ, assigns⟩ := after.assigned
          have same := after.afresh ρ [] assigns (idle _) g mem
          rw [answerAfresh, ← named, same]
          exact ⟨ρ, rfl⟩

/-- Calls change neither the document of a session nor its view of the schema. -/
theorem call_same (s : Session) (c : Call) :
    (s.call c).2.view = s.view ∧ (s.call c).2.document = s.document := by
  cases c with
  | operationNamed name =>
      rw [call, buildOperationNamed]
      split <;> exact ⟨rfl, rfl⟩
  | operation o => exact ⟨rfl, rfl⟩
  | all => exact ⟨rfl, rfl⟩
  | fragment name => exact ⟨rfl, rfl⟩

theorem after_append (s : Session) (before later : List Call) :
    s.after (before ++ later) = (s.after before).after later :=
  List.foldl_append

theorem view_after (s : Session) (calls : List Call) : (s.after calls).view = s.view := by
  induction calls generalizing s with
  | nil => rfl
  | cons c calls ih => exact (ih (s.call c).2).trans (s.call_same c).1

/-- However many calls were made, what a session remembers is right. -/
theorem after_remembers (inj : Function.Injective identity) (calls : List Call) :
    ∀ s : Session, s.Remembers identity → (s.after calls).Remembers identity
      ∧ (s.after calls).view = s.view ∧ (s.after calls).document = s.document := by
  induction calls with
  | nil => exact fun s remembers => ⟨remembers, rfl, rfl⟩
  | cons c calls ih =>
      intro s remembers
      obtain ⟨last, view, document⟩ := ih (s.call c).2 (call_afresh inj remembers c).1
      obtain ⟨sameView, sameDocument⟩ := s.call_same c
      exact ⟨last, view.trans sameView, document.trans sameDocument⟩

/-- A session at its beginning has nothing to remember. -/
theorem start_remembers {schema : Schema} {document : Document} {next : Nat}
    (started : start schema document next = .ok s) : s.Remembers identity := by
  obtain ⟨view, -, same⟩ := bind_eq_ok.mp started
  cases same
  exact ⟨nofun, ⟨Equiv.refl _, nofun⟩, fun _ _ _ _ => nofun⟩

/-- Sessions on one document that begin with different numbers differ in nothing else. -/
theorem start_same {schema : Schema} {document : Document} {next next' : Nat} {t : Session}
    (started : start schema document next = .ok s) (started' : start schema document next' = .ok t) :
    s.view = t.view ∧ s.document = t.document := by
  obtain ⟨view, made, same⟩ := bind_eq_ok.mp started
  obtain ⟨view', made', same'⟩ := bind_eq_ok.mp started'
  cases made.symm.trans made'
  cases same
  cases same'
  exact ⟨rfl, rfl⟩

end Session

/-- After any calls, whether they succeeded or failed, a session answers every further call as a
session on the same schema and document does that was never asked before: with the same result or the
same error, up to the identities of definitions, and so with the same identifiers of operations. -/
theorem sessions_forget_their_history (schema : Schema) (document : Document) (next next' : Nat)
    (used new : Session) (startedUsed : Session.start schema document next = .ok used)
    (startedNew : Session.start schema document next' = .ok new) (calls : List Call) (c : Call) :
    ∃ ρ : Equiv.Perm DefinitionId, ((used.after calls).call c).1.rename ρ = (new.call c).1
      ∧ ((used.after calls).call c).1.identifiers = (new.call c).1.identifiers := by
  obtain ⟨identity, inj⟩ := exists_identity
  obtain ⟨remembers, view, doc⟩ := Session.after_remembers inj calls used
    (Session.start_remembers startedUsed)
  obtain ⟨sameView, sameDocument⟩ := Session.start_same startedUsed startedNew
  obtain ⟨-, ρ, answer⟩ := Session.call_afresh inj remembers c
  obtain ⟨-, σ, answer'⟩ := Session.call_afresh inj (Session.start_remembers startedNew) c
  rw [view, doc, sameView, sameDocument, ← answer'] at answer
  -- Both answers are the one that is built afresh; the way there and back renames one to the other.
  have there : ((used.after calls).call c).1.rename (σ.symm ∘ ρ) = (new.call c).1 := by
    rw [← Answer.rename_rename, answer, Answer.rename_rename, Equiv.symm_comp_self, Answer.rename_id]
  refine ⟨ρ.trans σ.symm, there, ?_⟩
  rw [← there, Answer.identifiers_rename]

/-- A session that failed to build a fragment that spreads itself, and then built another fragment and
all operations, answers as a new one. -/
theorem heros_friend_is_built_again :
    let friend := Heroes.heroField "friend" [] [.field Heroes.nameField]
    let o := Heroes.query [.field (Heroes.heroField "hero" [] [.fragmentSpread "Friendly" []])]
    let document : Document := ⟨[o], [⟨⟨"Friendly", "Hero", [], [.field friend]⟩, none⟩,
      ⟨⟨"Circle", "Hero", [], [.fragmentSpread "Circle" []]⟩, none⟩]⟩
    let calls := [Call.fragment "Circle", Call.fragment "Friendly", Call.all]
    ∃ used new : Session, Session.start Heroes.schema document 0 = .ok used
      ∧ Session.start Heroes.schema document 7 = .ok new
      ∧ (used.buildFragment "Circle").1.toOption.isNone = true
      ∧ ∃ ρ : Equiv.Perm DefinitionId,
        ((used.after calls).call (.operation o)).1.rename ρ = (new.call (.operation o)).1
        ∧ ((used.after calls).call (.operation o)).1.identifiers
          = (new.call (.operation o)).1.identifiers := by
  intro friend o document calls
  obtain ⟨used, startedUsed, fails⟩ := (Option.any_eq_true _ _).mp
    (show ((Session.start Heroes.schema document 0).toOption.any fun s =>
      (s.buildFragment "Circle").1.toOption.isNone) = true by decide +kernel)
  obtain ⟨new, startedNew⟩ := Option.isSome_iff_exists.mp
    (show (Session.start Heroes.schema document 7).toOption.isSome = true by decide +kernel)
  have startedUsed := eq_ok_of_toOption startedUsed
  have startedNew := eq_ok_of_toOption startedNew
  exact ⟨used, new, startedUsed, startedNew, fails,
    sessions_forget_their_history Heroes.schema document 0 7 used new startedUsed startedNew calls _⟩

end SelectionGraph
