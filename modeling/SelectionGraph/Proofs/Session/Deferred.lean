import SelectionGraph.Proofs.Document.Selects
import SelectionGraph.Proofs.Session.Outcome

/-!
# Deferred — when a definition contains a deferred fragment

A definition that is built notes whether anything in it is deferred.  It takes that note over from
the fragments that it spreads, whether or not the spreads themselves are deferred.

* `Visits`                — the walk of some selections comes to one with a property;
* `Walked.deferred_iff`   — what a walk notes;
* `ExecutableDefinition.Defers` — a definition, or one that it involves, has a deferred fragment;
* `Session.Builds.deferred_iff` — that is what every definition that is built notes.
-/

namespace SelectionGraph

variable {view : SchemaView} {document : Document} {built : List NamedFragment}

/-! ## What a walk comes to -/

/-- The walk of some selections comes to one that has a property. -/
def Visits (view : SchemaView) (P : Selection → Prop) (ss : List Selection) : Prop :=
  ∃ s, Visited view ss s ∧ P s

section Visits

variable {P : Selection → Prop} {s : Selection} {ss : List Selection}

theorem not_visits_nil : ¬ Visits view P [] := by
  rintro ⟨s, visited, -⟩
  exact Visited.not_nil visited

theorem visits_cons : Visits view P (s :: ss) ↔ Visits view P [s] ∨ Visits view P ss := by
  unfold Visits
  simp only [@Visited.cons_iff view ss, or_and_right, exists_or]

theorem not_visits_skipped (skips : s.Skipped) : ¬ Visits view P [s] := by
  rintro ⟨t, visited, -⟩
  exact Visited.not_skipped skips visited

theorem visits_field {f : FieldSelection} (kept : ¬ (Selection.field f).Skipped) :
    Visits view P [.field f]
      ↔ P (.field f) ∨ view.isComposite f.type.innerName = .ok true ∧ Visits view P f.selections := by
  unfold Visits
  simp only [Visited.field_iff kept, or_and_right, exists_or, exists_eq_left, and_assoc,
    exists_and_left]

theorem visits_inline {condition : Option Name} {directives : List Directive}
    {inner : List Selection} (kept : ¬ (Selection.inlineFragment condition directives inner).Skipped) :
    Visits view P [.inlineFragment condition directives inner]
      ↔ P (.inlineFragment condition directives inner) ∨ Visits view P inner := by
  unfold Visits
  simp only [Visited.inline_iff kept, or_and_right, exists_or, exists_eq_left]

theorem visits_spread {name : Name} {directives : List Directive}
    (kept : ¬ (Selection.fragmentSpread name directives).Skipped) :
    Visits view P [.fragmentSpread name directives] ↔ P (.fragmentSpread name directives) := by
  unfold Visits
  simp only [Visited.spread_iff kept, exists_eq_left]

end Visits

/-! ## What a walk notes -/

/-- An inline fragment or a spread that is deferred. -/
def Selection.Deferred (s : Selection) : Prop :=
  s.isFragment = true ∧ (Deferral.said s.directives).isDeferred = true

/-- A fragment that is deferred, or the spread of one that contains such a fragment. -/
def Selection.Defers (built : List NamedFragment) (s : Selection) : Prop :=
  s.Deferred ∨ ∃ name directives f, s = .fragmentSpread name directives
    ∧ NamedFragment.find? built name = some f ∧ f.built.containsDeferred = true

theorem Selection.not_defers_field {f : FieldSelection} : ¬ (Selection.field f).Defers built := by
  rintro (⟨never, -⟩ | ⟨_, _, _, never, -⟩) <;> cases never

theorem Selection.defers_inline {condition : Option Name} {directives : List Directive}
    {inner : List Selection} {deferral : Deferral}
    (deferred : Deferral.ofDirectives directives = .ok deferral) :
    (Selection.inlineFragment condition directives inner).Defers built
      ↔ deferral.isDeferred = true := by
  simp [Defers, Deferred, isFragment, Selection.directives, Deferral.said_eq deferred]

theorem Selection.defers_spread {name : Name} {directives : List Directive} {deferral : Deferral}
    (deferred : Deferral.ofDirectives directives = .ok deferral) {f : NamedFragment}
    (found : NamedFragment.find? built name = some f) :
    (Selection.fragmentSpread name directives).Defers built
      ↔ (deferral.isDeferred || f.built.containsDeferred) = true := by
  simp [Defers, Deferred, isFragment, Selection.directives, Deferral.said_eq deferred, found]

/-- A walk notes a deferred fragment if one was noted before or it comes to one. -/
theorem Walked.deferred_iff {info : TypeInfo} {direct direct' : DirectSelections}
    {draft draft' : Draft} {ss : List Selection}
    (h : Walked view built info direct draft ss direct' draft') :
    draft'.containsDeferred = true
      ↔ draft.containsDeferred = true ∨ Visits view (Selection.Defers built) ss := by
  induction h with
  | nil => exact (or_iff_left not_visits_nil).symm
  | skipped skips _ ih => rw [ih, visits_cons, or_iff_right (not_visits_skipped skips)]
  | @leaf info direct direct₁ direct' draft draft' f ss inclusion included isLeaf added _ ih =>
      have nothing : ¬ Visits view (Selection.Defers built) [.field f] := by
        rw [visits_field (Selection.not_skipped included), isLeaf]
        simp [Selection.not_defers_field]
      rw [ih, visits_cons, or_iff_right nothing]
      rfl
  | @entity info direct below direct₁ direct' draft draft₁ draft' entities entity f ss inclusion
      included isComposite selected _ added _ ihInner ih =>
      rw [ih, visits_cons, visits_field (Selection.not_skipped included), isComposite,
        or_iff_right Selection.not_defers_field, ← or_assoc, and_iff_right rfl]
      exact or_congr_left ihInner
  | flat read scope deferred _ _ _ ihInside ih | inline read scope deferred _ _ _ _ ihInside ih =>
      have included := Inclusion.ofDirectives_of_verdict read
      rw [scope] at included
      rw [ih, ihInside, visits_cons, visits_inline (Selection.not_skipped included),
        Selection.defers_inline deferred, ← or_assoc, ← or_assoc, Draft.noteDeferred, Bool.or_eq_true]
  | spread included deferred found _ _ _ ih =>
      -- The fragment's note is taken over, so that a spread counts for all that it leads to.
      rw [ih, visits_cons, visits_spread (Selection.not_skipped included),
        Selection.defers_spread deferred found, ← or_assoc]
      simp only [Draft.reference, Bool.or_eq_true]

theorem WalkedFrom.deferred_iff {source : SourceDefinition} {rootName : Name} {b : BuiltSelections}
    (h : WalkedFrom view built source rootName b) :
    b.containsDeferred = true
      ↔ Visits view (Selection.Defers built) source.definition.selections := by
  obtain ⟨direct, draft, walked, rfl⟩ := h
  exact walked.deferred_iff.trans (or_iff_right Bool.false_ne_true)

/-! ## Definitions -/

namespace ExecutableDefinition

variable {d x y : ExecutableDefinition}

/-- What a definition involves involves nothing else. -/
theorem Involves.trans (h : d.Involves view document x) (onwards : x.Involves view document y) :
    d.Involves view document y := by
  induction onwards with
  | self => exact h
  | spread _ spreads defined ih => exact .spread ih spreads defined

/-- A definition involves what the fragments that it spreads involve. -/
theorem Involves.head {name : Name} {f : Sourced FragmentDefinition}
    (spreads : Spreads view d.selections name) (defined : document.fragment? name = some f)
    (h : (fragment f.definition).Involves view document x) : d.Involves view document x :=
  (Involves.spread .self spreads defined).trans h

/-- What a definition involves is the definition, or is involved by a fragment that it spreads. -/
theorem Involves.cases_head (h : d.Involves view document x) :
    x = d ∨ ∃ name f, Spreads view d.selections name ∧ document.fragment? name = some f
      ∧ (fragment f.definition).Involves view document x := by
  induction h with
  | self => exact Or.inl rfl
  | spread _ spreads defined ih =>
      rcases ih with rfl | ⟨name, f, first, definedF, involved⟩
      · exact Or.inr ⟨_, _, spreads, defined, .self⟩
      · exact Or.inr ⟨name, f, first, definedF, .spread involved spreads defined⟩

/-- The walk of a definition, or of a fragment that it involves, comes to a deferred fragment. -/
def Defers (view : SchemaView) (document : Document) (d : ExecutableDefinition) : Prop :=
  ∃ x, d.Involves view document x ∧ Visits view Selection.Deferred x.selections

end ExecutableDefinition

/-- What is built notes a deferred fragment if it has one, or involves one that has. -/
theorem WalkedFrom.defers_iff (library : Library view document built)
    (fragments : ∀ g ∈ built, g.built.containsDeferred = true
      ↔ (ExecutableDefinition.fragment g.definition).Defers view document)
    {source : SourceDefinition} {rootName : Name} {b : BuiltSelections}
    (h : WalkedFrom view built source rootName b) :
    b.containsDeferred = true ↔ source.definition.Defers view document := by
  rw [h.deferred_iff]
  constructor
  · rintro ⟨s, visited, deferred | ⟨name, directives, g, rfl, found, contains⟩⟩
    · exact ⟨_, .self, s, visited, deferred⟩
    · obtain ⟨mem, named⟩ := NamedFragment.mem_of_find? found
      obtain ⟨f, defined, same⟩ := library.defined g mem
      obtain ⟨x, involved, visits⟩ := (fragments g mem).mp contains
      rw [named] at defined
      rw [← same] at involved
      exact ⟨x, .head ⟨directives, visited⟩ defined involved, visits⟩
  · rintro ⟨x, involved, visits⟩
    rcases involved.cases_head with rfl | ⟨name, f, spreads, defined, involved⟩
    · obtain ⟨s, visited, deferred⟩ := visits
      exact ⟨s, visited, Or.inl deferred⟩
    · obtain ⟨g, found⟩ := h.found spreads
      obtain ⟨mem, named⟩ := NamedFragment.mem_of_find? found
      obtain ⟨f', defined', same⟩ := library.defined g mem
      rw [named, defined] at defined'
      cases defined'
      rw [same] at involved
      obtain ⟨directives, visited⟩ := spreads
      exact ⟨_, visited, Or.inr ⟨name, directives, g, rfl, found,
        (fragments g mem).mpr ⟨x, involved, visits⟩⟩⟩

theorem Library.defers_iff (h : Library view document built) :
    ∀ g ∈ built, g.built.containsDeferred = true
      ↔ (ExecutableDefinition.fragment g.definition).Defers view document :=
  h.induction fun _ _ _ _ _ _ library earlier _ walked => walked.defers_iff library earlier

/-- A definition that a session builds notes a deferred fragment exactly if it defers, itself or in
a fragment that it involves. -/
theorem Session.Builds.deferred_iff {s : Session} (reachable : s.Reachable document)
    {d : ExecutableDefinition} {b : BuiltSelections} (h : s.Builds d b) :
    b.containsDeferred = true ↔ d.Defers s.view document := by
  obtain ⟨built, id, rootName, library, walked⟩ := h.walked reachable
  exact walked.defers_iff library library.defers_iff

end SelectionGraph
