import Mathlib.Logic.Equiv.Basic
import SelectionGraph.Proofs.Session.Follows
import SelectionGraph.Proofs.Session.Reachable

/-!
# Afresh — what a fragment comes to if nothing was built before

A session remembers the fragments it has built.  Here each of them is built anew wherever it is
spread, and definitions have identities by what they are, not by when they are built.  A session
answers, renamed, as if it had built everything afresh.

* `Build.afresh`            — the fragment of a name, without memory;
* `Assigns`                 — a renaming gives definitions their identities by what they are;
* `Remembers`               — the fragments of a session are, renamed, what they are afresh;
* `recalls`                 — building a fragment keeps that, and fails as it does afresh.

A fragment that is built does not depend on the fragments in progress: it spreads none of them.  So
what `Remembers` says of it holds whatever is in progress, as long as that is not built itself.
-/

namespace SelectionGraph

/-! ## Building without memory -/

/-- What a definition is that is being built: the fragment of a name, or one of several operations. -/
inductive Part
  | fragment (name : Name)
  | operation (place : Nat)
  deriving DecidableEq

namespace Build

/-- A step that has a result already. -/
def ofExcept {α : Type} : Except BuildError α → Build α
  | .ok a => pure a
  | .error e => throw e

/-- What a definition comes to where fragments are had in some way that does not change. -/
def apart (view : SchemaView) (lookUp : Name → Except BuildError NamedFragment)
    (source : SourceDefinition) (rootName : Name) : Except BuildError BuiltSelections :=
  let walk := Walk.all view (fun name => ofExcept (lookUp name)) (source.info view) .empty
    source.definition.selections
  (walk.result (.start source) ⟨.empty, [], 0⟩).1.map fun (direct, draft) =>
    source.built view rootName direct draft

/-- The fragment of a name, built anew for each spread. -/
def afresh (identity : Part → DefinitionId) (view : SchemaView) (document : Document)
    (inProgress : List Name) (name : Name) : Except BuildError NamedFragment :=
  if _ : name ∈ inProgress then .error (.cyclicFragment name (cycle inProgress name))
  else
    match _ : document.fragment? name with
    | none => .error (.unknownFragment name)
    | some f =>
        (apart view (fun spread => afresh identity view document (inProgress ++ [name]) spread)
          ⟨identity (.fragment name), .fragment f.definition⟩ name).map fun built =>
            ⟨f.definition, built, sourceOf FragmentDefinition.text f⟩
termination_by waiting document inProgress
decreasing_by exact waiting_lt ‹¬ name ∈ inProgress› ‹document.fragment? name = some _›

section Afresh

variable {identity : Part → DefinitionId} {view : SchemaView} {document : Document}
  {inProgress : List Name} {name : Name}

theorem afresh_of_mem (active : name ∈ inProgress) :
    afresh identity view document inProgress name
      = .error (.cyclicFragment name (cycle inProgress name)) := by
  rw [afresh, dif_pos active]

theorem afresh_of_undefined (inactive : name ∉ inProgress)
    (undefined : document.fragment? name = none) :
    afresh identity view document inProgress name = .error (.unknownFragment name) := by
  rw [afresh, dif_neg inactive]
  split
  · rfl
  · rename_i f defined
    cases undefined.symm.trans defined

theorem afresh_of_defined (inactive : name ∉ inProgress) {f : Sourced FragmentDefinition}
    (defined : document.fragment? name = some f) :
    afresh identity view document inProgress name
      = (apart view (afresh identity view document (inProgress ++ [name]))
          ⟨identity (.fragment name), .fragment f.definition⟩ name).map fun built =>
            ⟨f.definition, built, sourceOf FragmentDefinition.text f⟩ := by
  rw [afresh, dif_neg inactive]
  split
  · rename_i undefined
    cases undefined.symm.trans defined
  · rename_i f' defined'
    cases defined.symm.trans defined'
    rfl

end Afresh

end Build

/-! ## Numbers -/

/-- The number of the definition that a fragment was built as. -/
def NamedFragment.number (f : NamedFragment) : Nat :=
  f.identity.definition.number

/-- Further fragments have further numbers. -/
structure Numbers (p p' : Progress) : Prop where
  later : p.nextDefinition ≤ p'.nextDefinition
  new : ∀ g ∈ p'.fragments, g ∈ p.fragments
    ∨ p.nextDefinition ≤ g.number ∧ g.number < p'.nextDefinition

theorem numbers_order : Progress.Order Numbers where
  refl _ := ⟨Nat.le_refl _, fun _ => Or.inl⟩
  trans h₁ h₂ := by
    refine ⟨Nat.le_trans h₁.later h₂.later, fun g mem => ?_⟩
    rcases h₂.new g mem with before | ⟨low, high⟩
    · rcases h₁.new g before with first | ⟨low, high⟩
      · exact Or.inl first
      · exact Or.inr ⟨low, Nat.lt_of_lt_of_le high h₂.later⟩
    · exact Or.inr ⟨Nat.le_trans h₁.later low, high⟩

/-- A definition takes the next number. -/
theorem Numbers.taking {p p' : Progress}
    (h : Numbers { p with nextDefinition := p.nextDefinition + 1 } p') : Numbers p p' where
  later := Nat.le_trans (Nat.le_succ _) h.later
  new g mem := (h.new g mem).imp id fun ⟨low, high⟩ => ⟨Nat.le_trans (Nat.le_succ _) low, high⟩

namespace Build

variable {view : SchemaView} {document : Document}

theorem numbers_selections {fragmentNamed : Name → Build NamedFragment}
    (lookUp : ∀ name, (fragmentNamed name).Keeps Numbers) (definition : ExecutableDefinition)
    (rootName : Name) (ss : List Selection) (p : Progress) :
    Numbers { p with nextDefinition := p.nextDefinition + 1 }
      ((selections view fragmentNamed definition rootName ss).result p).2 := by
  have walk := @Walk.keeps_all _ numbers_order view _ lookUp
    (SourceDefinition.info ⟨⟨p.nextDefinition⟩, definition⟩ view) .empty ss
    (fun _ _ _ _ => ⟨Nat.le_refl _, fun _ => Or.inl⟩)
    (.start ⟨⟨p.nextDefinition⟩, definition⟩) { p with nextDefinition := p.nextDefinition + 1 }
  rw [result_selections]
  split <;> rename_i run <;> rw [run] at walk <;> exact walk

/-- What is built bears the number that was next. -/
theorem definition_selections {fragmentNamed : Name → Build NamedFragment}
    {definition : ExecutableDefinition} {rootName : Name} {ss : List Selection} {p p' : Progress}
    {b : BuiltSelections}
    (h : (selections view fragmentNamed definition rootName ss).result p = (.ok b, p')) :
    b.rootField.id.definition = ⟨p.nextDefinition⟩ := by
  rw [result_selections] at h
  split at h
  · cases h
    rfl
  · cases h

theorem numbers_fragmentNamed (view : SchemaView) (document : Document) (inProgress : List Name)
    (name : Name) : (fragmentNamed view document inProgress name).Keeps Numbers := by
  intro p
  rw [result_fragmentNamed]
  cases NamedFragment.find? p.fragments name with
  | some built => exact numbers_order.refl p
  | none =>
      dsimp only
      by_cases active : name ∈ inProgress
      · rw [if_pos active]
        exact numbers_order.refl p
      · rw [if_neg active]
        cases defined : document.fragment? name with
        | none => exact numbers_order.refl p
        | some f =>
            have numbers := @numbers_selections view _
              (fun spread => numbers_fragmentNamed view document (inProgress ++ [name]) spread)
              (.fragment f.definition) name f.definition.selections p
            dsimp only
            rcases run : (selections view (fragmentNamed view document (inProgress ++ [name]))
              (.fragment f.definition) name f.definition.selections).result p with ⟨e | b, p'⟩
            · rw [run] at numbers
              exact numbers.taking
            · rw [run] at numbers
              refine ⟨numbers.taking.later, fun g mem => ?_⟩
              rcases List.mem_append.mp mem with before | last
              · exact numbers.taking.new g before
              · cases List.mem_singleton.mp last
                have number := congrArg DefinitionId.number (definition_selections run)
                refine Or.inr ⟨Nat.le_of_eq number.symm, ?_⟩
                exact Nat.lt_of_le_of_lt (Nat.le_of_eq number) numbers.later
termination_by waiting document inProgress
decreasing_by exact waiting_lt active defined

end Build

/-! ## Identities by what is built -/

/-- The parts that fragments are, with the identities that they were built under. -/
def NamedFragment.parts (fragments : List NamedFragment) : List (DefinitionId × Part) :=
  fragments.map fun f => (f.identity.definition, .fragment f.name)

/-- A renaming gives each definition its identity by what it is. -/
def Assigns (identity : Part → DefinitionId) (ρ : DefinitionId → DefinitionId)
    (parts : List (DefinitionId × Part)) : Prop :=
  ∀ x ∈ parts, ρ x.1 = identity x.2

section Assigns

variable {identity : Part → DefinitionId} {parts parts' : List (DefinitionId × Part)}

theorem Assigns.mono {ρ : DefinitionId → DefinitionId} (h : Assigns identity ρ parts)
    (sub : ∀ x ∈ parts', x ∈ parts) : Assigns identity ρ parts' :=
  fun x mem => h x (sub x mem)

/-- One more part can be given its identity: the two identities that this would confuse are swapped. -/
theorem Assigns.exists_insert {ρ : Equiv.Perm DefinitionId} (inj : Function.Injective identity)
    (h : Assigns identity ρ parts) {id : DefinitionId} {part : Part}
    (newId : ∀ x ∈ parts, x.1 ≠ id) (newPart : ∀ x ∈ parts, x.2 ≠ part) :
    ∃ ρ' : Equiv.Perm DefinitionId, Assigns identity ρ' ((id, part) :: parts) := by
  refine ⟨ρ.trans (Equiv.swap (ρ id) (identity part)), ?_⟩
  intro x mem
  rcases List.mem_cons.mp mem with rfl | mem
  · exact Equiv.swap_apply_left _ _
  · have otherId : ρ x.1 ≠ ρ id := fun same => newId x mem (ρ.injective same)
    have otherPart : ρ x.1 ≠ identity part := by
      rw [h x mem]
      exact fun same => newPart x mem (inj same)
    exact (Equiv.swap_apply_of_ne_of_ne otherId otherPart).trans (h x mem)

end Assigns

/-! ## What a session remembers -/

/-- None of some fragments is built. -/
def Idle (names : List Name) (fragments : List NamedFragment) : Prop :=
  ∀ name ∈ names, NamedFragment.find? fragments name = none

/-- The fragments of a session have numbers that were spent and identities of their own, and they
are, renamed, what they are afresh. -/
structure Remembers (identity : Part → DefinitionId) (view : SchemaView) (document : Document)
    (p : Progress) : Prop where
  spent : ∀ g ∈ p.fragments, g.number < p.nextDefinition
  assigned : ∃ ρ : Equiv.Perm DefinitionId, Assigns identity ρ (NamedFragment.parts p.fragments)
  afresh : ∀ (ρ : Equiv.Perm DefinitionId) (inProgress : List Name),
    Assigns identity ρ (NamedFragment.parts p.fragments) → Idle inProgress p.fragments →
    ∀ g ∈ p.fragments, Build.afresh identity view document inProgress g.name = .ok (g.rename ρ)

section Remembers

variable {identity : Part → DefinitionId} {view : SchemaView} {document : Document}

theorem Idle.of_prefix {names : List Name} {fragments fragments' : List NamedFragment}
    (h : Idle names fragments') (more : fragments <+: fragments') : Idle names fragments := by
  intro name mem
  obtain ⟨added, rfl⟩ := more
  have unbuilt := h name mem
  rw [NamedFragment.find?, List.find?_append, Option.or_eq_none_iff] at unbuilt
  exact unbuilt.1

theorem Assigns.of_prefix {ρ : DefinitionId → DefinitionId} {fragments fragments' : List NamedFragment}
    (h : Assigns identity ρ (NamedFragment.parts fragments')) (more : fragments <+: fragments') :
    Assigns identity ρ (NamedFragment.parts fragments) :=
  h.mono fun _ mem => (more.map _).subset mem

theorem Assigns.of_mem {ρ : DefinitionId → DefinitionId} {fragments : List NamedFragment}
    (h : Assigns identity ρ (NamedFragment.parts fragments)) {g : NamedFragment}
    (mem : g ∈ fragments) : ρ g.identity.definition = identity (.fragment g.name) :=
  h _ (List.mem_map_of_mem mem)

theorem Idle.not_mem {names : List Name} {fragments : List NamedFragment} (h : Idle names fragments)
    {g : NamedFragment} (mem : g ∈ fragments) : g.name ∉ names :=
  fun active => List.find?_eq_none.mp (h g.name active) g mem (beq_iff_eq.mpr rfl)

theorem Idle.part_ne {names : List Name} {fragments : List NamedFragment} (h : Idle names fragments)
    {name : Name} (mem : name ∈ names) :
    ∀ x ∈ NamedFragment.parts fragments, x.2 ≠ .fragment name := by
  intro x memX same
  obtain ⟨g, memG, rfl⟩ := List.mem_map.mp memX
  have named : g.name = name := Part.fragment.inj same
  exact h.not_mem memG (named ▸ mem)

/-- A number that is next is none of those spent. -/
theorem Remembers.number_ne {p p' : Progress} (h : Remembers identity view document p)
    (numbers : Numbers { p with nextDefinition := p.nextDefinition + 1 } p') :
    ∀ x ∈ NamedFragment.parts p'.fragments, x.1 ≠ ⟨p.nextDefinition⟩ := by
  intro x mem same
  obtain ⟨g, memG, rfl⟩ := List.mem_map.mp mem
  have number : g.number = p.nextDefinition := congrArg DefinitionId.number same
  rcases numbers.new g memG with before | ⟨low, -⟩
  · exact absurd number (Nat.ne_of_lt (h.spent g before))
  · exact absurd number (Nat.ne_of_gt low)

namespace Build

/-- With some fragments in progress, whatever is asked for is remembered rightly afterwards; and what
cannot be built cannot be built afresh, for the same reason. -/
def Recalls (identity : Part → DefinitionId) (view : SchemaView) (document : Document)
    (inProgress : List Name) : Prop :=
  ∀ name p, Remembers identity view document p → Idle inProgress p.fragments →
    Remembers identity view document ((fragmentNamed view document inProgress name).result p).2
      ∧ ∀ e, ((fragmentNamed view document inProgress name).result p).1 = .error e →
        afresh identity view document inProgress name = .error e

/-- What is ready to be built with. -/
def Prepared (identity : Part → DefinitionId) (view : SchemaView) (document : Document)
    (inProgress : List Name) (p : Progress) : Prop :=
  Remembers identity view document p ∧ Idle inProgress p.fragments

/-- What is known at the end of the renaming, and of the fragments in progress in another build. -/
def Matches (identity : Part → DefinitionId) (ρ : DefinitionId → DefinitionId)
    (inProgress : List Name) (p : Progress) : Prop :=
  Assigns identity ρ (NamedFragment.parts p.fragments) ∧ Idle inProgress p.fragments

variable {inProgress inProgress' : List Name}

/-- The look-up of a session keeps the progress prepared. -/
theorem Recalls.keeps (h : Recalls identity view document inProgress) (name : Name) :
    (fragmentNamed view document inProgress name).Keeps fun p p' =>
      Prepared identity view document inProgress p → Prepared identity view document inProgress p' := by
  rintro p ⟨remembers, idle⟩
  have advances := (fragmentNamed_spec view document inProgress name).1 p
  exact ⟨(h name p remembers idle).1, fun n mem => advances.2.2 n mem (idle n mem)⟩

/-- The look-up of a session follows the one that builds afresh, where other fragments may be in
progress; if it fails, then only if they are the same. -/
theorem Recalls.follows (h : Recalls identity view document inProgress)
    (ρ : Equiv.Perm DefinitionId) (name : Name) :
    Walk.Follows (Prepared identity view document inProgress) (Matches identity ρ inProgress')
      (inProgress = inProgress') ρ (NamedFragment.rename ρ)
      (Walk.ofBuild (fragmentNamed view document inProgress name))
      (Walk.ofBuild (ofExcept (afresh identity view document inProgress' name))) where
  keeps := by
    refine Walk.keeps_ofBuild fun p => ⟨h.keeps name p, ?_⟩
    have advances := (fragmentNamed_spec view document inProgress name).1 p
    rintro ⟨assigns, idle⟩
    exact ⟨assigns.of_prefix advances.1, idle.of_prefix advances.1⟩
  answers := by
    intro d p q prepared
    rw [Walk.result_ofBuild, Walk.result_ofBuild]
    have found := (fragmentNamed_spec view document inProgress name).2 p
    have after := h.keeps name p prepared
    have fails := (h name p prepared.1 prepared.2).2
    rcases run : (fragmentNamed view document inProgress name).result p with ⟨e | g, p'⟩
    · rintro - rfl
      rw [run] at fails
      rw [fails e rfl]
      rfl
    · rintro ⟨assigns, idle⟩
      rw [run] at after
      obtain ⟨mem, named⟩ := NamedFragment.mem_of_find? (found g p' run)
      have same := after.1.afresh ρ inProgress' assigns idle g mem
      rw [named] at same
      rw [same]
      rfl

theorem Prepared.of_same {p p' : Progress} (h : Prepared identity view document inProgress p)
    (same : p'.fragments = p.fragments) (later : p.nextDefinition ≤ p'.nextDefinition) :
    Prepared identity view document inProgress p' := by
  obtain ⟨⟨spent, assigned, afresh⟩, idle⟩ := h
  rw [← same] at spent assigned afresh idle
  exact ⟨⟨fun g mem => Nat.lt_of_lt_of_le (spent g mem) later, assigned, afresh⟩, idle⟩

theorem Recalls.lookUpsFollow (h : Recalls identity view document inProgress)
    (ρ : Equiv.Perm DefinitionId) (inProgress' : List Name) :
    Walk.LookUpsFollow (Prepared identity view document inProgress)
      (Matches identity ρ inProgress') (inProgress = inProgress') ρ
      (fragmentNamed view document inProgress)
      (fun name => ofExcept (afresh identity view document inProgress' name)) where
  injective := ρ.injective
  fragments := h.follows ρ
  collects parent field type := by
    refine ⟨?_, fun _ _ _ _ _ => rfl⟩
    exact Walk.keeps_ofBuild fun p => ⟨fun ready => ready.of_same rfl (Nat.le_refl _), id⟩

/-- What a definition comes to in a session is, renamed, what it comes to with fragments built
afresh. -/
theorem Recalls.selections (h : Recalls identity view document inProgress)
    (definition : ExecutableDefinition) (rootName : Name) {p : Progress}
    (prepared : Prepared identity view document inProgress p)
    {r : Except BuildError BuiltSelections} {p' : Progress}
    (run : (Build.selections view (fragmentNamed view document inProgress) definition rootName
      definition.selections).result p = (r, p')) :
    Prepared identity view document inProgress p'
      ∧ ∀ (ρ : Equiv.Perm DefinitionId) (inProgress' : List Name),
        Matches identity ρ inProgress' p' →
        Answers (inProgress = inProgress') (BuiltSelections.rename ρ) r
          (apart view (afresh identity view document inProgress')
            ⟨ρ ⟨p.nextDefinition⟩, definition⟩ rootName) := by
  let source : SourceDefinition := ⟨⟨p.nextDefinition⟩, definition⟩
  have ready : Prepared identity view document inProgress
      { p with nextDefinition := p.nextDefinition + 1 } := prepared.of_same rfl (Nat.le_succ _)
  have follows := fun ρ inProgress' => @Walk.follows_all _ _ _ _ view _ _
    (h.lookUpsFollow ρ inProgress') (source.info view) .empty definition.selections
  rw [result_selections] at run
  rcases walk : (Walk.all view (fragmentNamed view document inProgress) (source.info view) .empty
    definition.selections).result (.start source)
      { p with nextDefinition := p.nextDefinition + 1 } with ⟨r', p''⟩
  have ended : p'' = p' ∧ r = r'.map fun (direct, draft) => source.built view rootName direct draft := by
    rw [walk] at run
    rcases r' with e | ⟨direct, draft⟩ <;> cases run <;> exact ⟨rfl, rfl⟩
  obtain ⟨rfl, rfl⟩ := ended
  constructor
  · have steady := (follows (Equiv.refl _) []).keeps (.start source)
      { p with nextDefinition := p.nextDefinition + 1 }
    rw [walk] at steady
    exact steady.1 ready
  · intro ρ inProgress' matched
    have answers := (follows ρ inProgress').answers (.start source) _ ⟨.empty, [], 0⟩ ready
    rw [walk, DirectSelections.rename_empty] at answers
    refine (answers matched).map ?_
    rintro ⟨direct, draft⟩
    change _ = (source.built view rootName direct draft).rename ρ
    rw [SourceDefinition.built, BuiltSelections.rename_mk]
    rfl

end Build

/-- One more fragment is finished. -/
theorem Remembers.finish {p : Progress} (h : Remembers identity view document p)
    (inj : Function.Injective identity) {g : NamedFragment} (spent : g.number < p.nextDefinition)
    (newId : ∀ x ∈ NamedFragment.parts p.fragments, x.1 ≠ g.identity.definition)
    (newName : Idle [g.name] p.fragments)
    (own : ∀ (ρ : Equiv.Perm DefinitionId) (inProgress : List Name),
      Assigns identity ρ (NamedFragment.parts (p.fragments ++ [g])) →
      Idle inProgress (p.fragments ++ [g]) →
      Build.afresh identity view document inProgress g.name = .ok (g.rename ρ)) :
    Remembers identity view document { p with fragments := p.fragments ++ [g] } where
  spent g' mem := by
    rcases List.mem_append.mp mem with before | last
    · exact h.spent g' before
    · exact List.mem_singleton.mp last ▸ spent
  assigned := by
    obtain ⟨ρ, assigns⟩ := h.assigned
    obtain ⟨ρ', assigns'⟩ := assigns.exists_insert inj newId
      (newName.part_ne (List.mem_singleton.mpr rfl))
    refine ⟨ρ', assigns'.mono fun x mem => ?_⟩
    rw [NamedFragment.parts, List.map_append] at mem
    rcases List.mem_append.mp mem with before | last
    · exact List.mem_cons_of_mem _ before
    · exact List.mem_cons.mpr (Or.inl (List.mem_singleton.mp last))
  afresh ρ inProgress assigns idle g' mem := by
    rcases List.mem_append.mp mem with before | last
    · have more : p.fragments <+: p.fragments ++ [g] := List.prefix_append _ _
      exact h.afresh ρ inProgress (assigns.of_prefix more) (idle.of_prefix more) g' before
    · exact List.mem_singleton.mp last ▸ own ρ inProgress assigns idle

namespace Build

section Nested

variable (inj : Function.Injective identity) {name : Name} {f : Sourced FragmentDefinition}
  {p p' : Progress} (nested : Recalls identity view document (inProgress ++ [name]))
  (defined : document.fragment? name = some f)
  (prepared : Prepared identity view document (inProgress ++ [name]) p)

include inj nested defined prepared

/-- A fragment fails as it does afresh. -/
theorem Recalls.fails (inactive : name ∉ inProgress) {e : BuildError}
    (run : (Build.selections view (fragmentNamed view document (inProgress ++ [name]))
      (.fragment f.definition) name f.definition.selections).result p = (.error e, p')) :
    Remembers identity view document p'
      ∧ afresh identity view document inProgress name = .error e := by
  have numbers := @numbers_selections view _
    (numbers_fragmentNamed view document (inProgress ++ [name])) (.fragment f.definition) name
    f.definition.selections p
  rw [run] at numbers
  obtain ⟨⟨after, idle⟩, answers⟩ := nested.selections _ _ prepared run
  refine ⟨after, ?_⟩
  -- No fragment bears the identity of the one that failed, so it can be given its own.
  obtain ⟨ρ, assigns⟩ := after.assigned
  obtain ⟨ρ', assigns'⟩ := assigns.exists_insert inj (prepared.1.number_ne numbers)
    (idle.part_ne (List.mem_append_right _ (List.mem_singleton.mpr rfl)))
  have own : ρ' ⟨p.nextDefinition⟩ = identity (.fragment name) := assigns' _ (List.mem_cons_self ..)
  have others := assigns'.mono fun x => List.mem_cons_of_mem _
  have failed := answers ρ' _ ⟨others, idle⟩ rfl
  rw [own] at failed
  rw [afresh_of_defined inactive defined, failed]
  rfl

/-- A fragment that is finished is what it is afresh. -/
theorem Recalls.finishes {b : BuiltSelections}
    (run : (Build.selections view (fragmentNamed view document (inProgress ++ [name]))
      (.fragment f.definition) name f.definition.selections).result p = (.ok b, p')) :
    Remembers identity view document { p' with
      fragments := p'.fragments ++ [⟨f.definition, b, sourceOf FragmentDefinition.text f⟩] } := by
  have numbers := @numbers_selections view _
    (numbers_fragmentNamed view document (inProgress ++ [name])) (.fragment f.definition) name
    f.definition.selections p
  rw [run] at numbers
  obtain ⟨⟨after, idle⟩, answers⟩ := nested.selections _ _ prepared run
  have bears := definition_selections run
  have named := Document.name_of_fragment? defined
  have newName : Idle [name] p'.fragments := fun n mem => idle n (List.mem_append_right _ mem)
  let g : NamedFragment := ⟨f.definition, b, sourceOf FragmentDefinition.text f⟩
  have isLast : g ∈ p'.fragments ++ [g] := List.mem_append_right _ (List.mem_singleton.mpr rfl)
  refine after.finish inj ?spent ?newId ?newName ?own
  case spent =>
    exact Nat.lt_of_le_of_lt (Nat.le_of_eq (congrArg DefinitionId.number bears)) numbers.later
  case newId => exact fun x mem same => prepared.1.number_ne numbers x mem (same.trans bears)
  case newName =>
    rw [NamedFragment.name, named]
    exact newName
  case own =>
    intro ρ inProgress' assigns idle'
    have more : p'.fragments <+: p'.fragments ++ [g] := List.prefix_append _ _
    have own : ρ ⟨p.nextDefinition⟩ = identity (.fragment name) := by
      rw [← bears, ← named]
      exact assigns.of_mem isLast
    -- What is finished is in progress nowhere else.
    have elsewhere : name ∉ inProgress' := named ▸ idle'.not_mem isLast
    have both : Idle (inProgress' ++ [name]) p'.fragments :=
      List.forall_mem_append.mpr ⟨idle'.of_prefix more, newName⟩
    have gives := answers ρ _ ⟨assigns.of_prefix more, both⟩
    rw [own] at gives
    rw [NamedFragment.name, named, afresh_of_defined elsewhere defined,
      show apart _ _ _ _ = _ from gives]
    rfl

end Nested

/-- Whatever fragments are in progress, those that are asked for are remembered rightly.  The induction
is on the fragments that are not in progress. -/
theorem recalls (inj : Function.Injective identity) (inProgress : List Name) :
    Recalls identity view document inProgress := by
  intro name p remembers idle
  rw [result_fragmentNamed]
  cases unbuilt : NamedFragment.find? p.fragments name with
  | some g => exact ⟨remembers, nofun⟩
  | none =>
      dsimp only
      by_cases active : name ∈ inProgress
      · rw [if_pos active]
        refine ⟨remembers, ?_⟩
        rintro _ ⟨⟩
        exact afresh_of_mem active
      rw [if_neg active]
      cases defined : document.fragment? name with
      | none =>
          refine ⟨remembers, ?_⟩
          rintro _ ⟨⟩
          exact afresh_of_undefined active defined
      | some f =>
          have nested : Recalls identity view document (inProgress ++ [name]) := recalls inj _
          have prepared : Prepared identity view document (inProgress ++ [name]) p :=
            ⟨remembers, List.forall_mem_append.mpr ⟨idle, List.forall_mem_singleton.mpr unbuilt⟩⟩
          dsimp only
          rcases run : (selections view (fragmentNamed view document (inProgress ++ [name]))
            (.fragment f.definition) name f.definition.selections).result p with ⟨e | b, p'⟩
          · obtain ⟨after, fails⟩ := nested.fails inj defined prepared active run
            refine ⟨after, ?_⟩
            rintro _ ⟨⟩
            exact fails
          · exact ⟨nested.finishes inj defined prepared run, nofun⟩
termination_by waiting document inProgress
decreasing_by exact waiting_lt active defined

end Build

end Remembers

end SelectionGraph
