import Mathlib.Data.List.Chain
import SelectionGraph.Proofs.Session.Origin
import SelectionGraph.Proofs.Session.Outcome

/-!
# Cycles — fragments that lead back to themselves

* `Build.fragmentStep`, `Build.unfolded` — one step of the building of a fragment, and finitely many:
  `unfolded_eq` says that as many steps as a document has fragments, and one more, are enough;
* `Document.Circle`  — a chain of spreads that leads from a fragment back to it;
* `Build.fragmentNamed_circle` — every circle that is reported is one;
* `Library.acc`      — fragments that are built lie on no circle;
* `circles_of_spreads_are_found` — a build fails when it involves a circle, and reports no other.
-/

namespace SelectionGraph

variable {view : SchemaView} {document : Document}

/-! ## Depth -/

namespace Build

/-- One step of the building of a fragment.  The fragments that it spreads are had from `nested`,
with the fragments in progress then. -/
def fragmentStep (view : SchemaView) (document : Document)
    (nested : List Name → Name → Build NamedFragment) (inProgress : List Name) (name : Name) :
    Build NamedFragment := do
  match (← get).fragments.find? fun f => f.name == name with
  | some built => return built
  | none =>
      if name ∈ inProgress then throw (.cyclicFragment name (cycle inProgress name))
      else
        match document.fragment? name with
        | none => throw (.unknownFragment name)
        | some f =>
            let built ← selections view (nested (inProgress ++ [name])) (.fragment f.definition) name
              f.definition.selections
            let fragment : NamedFragment :=
              ⟨f.definition, built, sourceOf FragmentDefinition.text f⟩
            modify fun progress =>
              { progress with fragments := progress.fragments ++ [fragment] }
            return fragment

/-- Finitely many steps.  What happens after them is up to `rest`. -/
def unfolded (view : SchemaView) (document : Document)
    (rest : List Name → Name → Build NamedFragment) : Nat → List Name → Name → Build NamedFragment
  | 0 => rest
  | depth + 1 => fragmentStep view document (unfolded view document rest depth)

theorem fragmentNamed_eq_step (inProgress : List Name) (name : Name) :
    fragmentNamed view document inProgress name
      = fragmentStep view document (fragmentNamed view document) inProgress name := by
  rw [fragmentNamed, fragmentStep]
  congr
  funext progress
  cases progress.fragments.find? fun f => f.name == name with
  | some built => rfl
  | none =>
      dsimp only
      by_cases active : name ∈ inProgress
      · rw [dif_pos active, if_pos active]
      · rw [dif_neg active, if_neg active]
        split <;> rename_i defined <;> rw [defined]

/-- A step depends on what is nested in it only for fragments that are defined and not in progress,
and there one more fragment is in progress. -/
theorem fragmentStep_congr {nested nested' : List Name → Name → Build NamedFragment}
    {inProgress : List Name} {name : Name}
    (same : ∀ f, name ∉ inProgress → document.fragment? name = some f →
      nested (inProgress ++ [name]) = nested' (inProgress ++ [name])) :
    fragmentStep view document nested inProgress name
      = fragmentStep view document nested' inProgress name := by
  rw [fragmentStep, fragmentStep]
  congr
  funext progress
  cases progress.fragments.find? fun f => f.name == name with
  | some built => rfl
  | none =>
      dsimp only
      by_cases active : name ∈ inProgress
      · rw [if_pos active, if_pos active]
      · rw [if_neg active, if_neg active]
        cases defined : document.fragment? name with
        | none => rfl
        | some f => rw [same f active defined]

/-- More steps than there are fragments that are not in progress are enough: whatever happens after
them never happens. -/
theorem unfolded_eq (rest : List Name → Name → Build NamedFragment) :
    ∀ (depth : Nat) (inProgress : List Name) (name : Name), waiting document inProgress < depth →
      unfolded view document rest depth inProgress name
        = fragmentNamed view document inProgress name := by
  intro depth
  induction depth with
  | zero =>
      intro inProgress name short
      exact absurd short (Nat.not_lt_zero _)
  | succ depth ih =>
      intro inProgress name short
      rw [fragmentNamed_eq_step, unfolded]
      apply fragmentStep_congr
      intro f active defined
      funext spread
      have fewer := waiting_lt active defined
      exact ih (inProgress ++ [name]) spread (by omega)

theorem waiting_nil : waiting document [] = document.fragments.length := by
  simp [waiting]

end Build

/-! ## Circles that are reported -/

/-- A chain of spreads that leads from a fragment back to it, and through no fragment twice. -/
structure Document.Circle (view : SchemaView) (document : Document) (fragment : Name)
    (chain : List Name) : Prop where
  closes : ∃ names, chain = names ++ [fragment] ∧ names.head? = some fragment ∧ names.Nodup
  follows : chain.IsChain (document.Spreads view)

/-- The part of a list from a member on. -/
theorem head?_dropWhile_ne {names : List Name} {name : Name} (mem : name ∈ names) :
    (names.dropWhile (· != name)).head? = some name := by
  induction names with
  | nil => simp at mem
  | cons first rest ih =>
      by_cases here : first = name
      · simp [here]
      · have later : name ∈ rest := by
          rcases List.mem_cons.mp mem with same | later
          · exact absurd same.symm here
          · exact later
        simpa [here] using ih later

namespace Document

variable {fragment : Name} {chain : List Name}

/-- Fragments in progress spread one another in turn; a spread of one of them closes a circle. -/
theorem circle_of_mem {names : List Name} (mem : fragment ∈ names) (nodup : names.Nodup)
    (follows : (names ++ [fragment]).IsChain (document.Spreads view)) :
    document.Circle view fragment (Build.cycle names fragment) where
  closes := ⟨_, rfl, head?_dropWhile_ne mem, nodup.sublist (List.dropWhile_sublist _)⟩
  follows := by
    obtain ⟨before, split⟩ := List.dropWhile_suffix (l := names) (· != fragment)
    have whole : (before ++ Build.cycle names fragment).IsChain (document.Spreads view) := by
      rw [Build.cycle, ← List.append_assoc, split]
      exact follows
    exact whole.right_of_append

/-- A circle has at least one spread. -/
theorem Circle.transGen (h : document.Circle view fragment chain) :
    Relation.TransGen (document.Spreads view) fragment fragment := by
  obtain ⟨⟨names, rfl, head, -⟩, follows⟩ := h
  cases names with
  | nil => cases head
  | cons first rest =>
      cases head
      cases rest with
      | nil => exact .single (List.isChain_pair.mp follows)
      | cons second rest =>
          rw [List.cons_append, List.cons_append, List.isChain_cons_cons] at follows
          -- After its first spread the chain goes on to the fragment at its end.
          have onwards : Relation.ReflTransGen (document.Spreads view) second fragment := by
            have along := List.relationReflTransGen_of_exists_isChain (second :: (rest ++ [fragment]))
              follows.2 (by simp)
            simpa using along
          exact .head' follows.1 onwards

end Document

/-- The definition involves a fragment that spreads lead back to. -/
def ExecutableDefinition.InvolvesCircle (view : SchemaView) (document : Document)
    (d : ExecutableDefinition) : Prop :=
  ∃ name f, document.fragment? name = some f
    ∧ d.Involves view document (.fragment f.definition)
    ∧ Relation.TransGen (document.Spreads view) name name

/-- A definition involves the fragments that spreads lead to from one it involves. -/
theorem ExecutableDefinition.Involves.follow {d : ExecutableDefinition} {a b : Name}
    {f g : Sourced FragmentDefinition} (start : document.fragment? a = some f)
    (involved : d.Involves view document (.fragment f.definition))
    (path : Relation.ReflTransGen (document.Spreads view) a b)
    (last : document.fragment? b = some g) :
    d.Involves view document (.fragment g.definition) := by
  induction path generalizing g with
  | refl =>
      cases start.symm.trans last
      exact involved
  | tail _ spreads ih =>
      obtain ⟨f', defined, visited⟩ := spreads
      exact .spread (ih defined) visited last

namespace Build

/-- What is reported while fragments that spread one another are in progress: a circle, to which the
first of them leads. -/
def ReportsCircle (view : SchemaView) (document : Document) (inProgress : List Name) (name : Name)
    (e : BuildError) : Prop :=
  (inProgress ++ [name]).IsChain (document.Spreads view) → inProgress.Nodup →
    ∀ fragment chain, e = .cyclicFragment fragment chain →
      document.Circle view fragment chain
        ∧ ∀ start ∈ (inProgress ++ [name]).head?,
          Relation.ReflTransGen (document.Spreads view) start fragment

/-- A fragment whose building reports a circle lies on it, or leads to it. -/
theorem fragmentNamed_circle {p p' : Progress} {e : BuildError} (inProgress : List Name)
    (name : Name)
    (h : (fragmentNamed view document inProgress name).result p = (.error e, p')) :
    ReportsCircle view document inProgress name e := by
  refine fragmentNamed_failed ?circle ?unknown ?inside inProgress name p e h
  case circle =>
    rintro inProgress name active follows nodup _ _ ⟨⟩
    refine ⟨Document.circle_of_mem active nodup follows, ?_⟩
    -- The fragments in progress lead from the first of them to the last spread.
    intro start head
    cases inProgress with
    | nil => simp at active
    | cons first rest =>
        cases head
        have along := List.relationReflTransGen_of_exists_isChain (start :: (rest ++ [name]))
          follows (by simp)
        simpa using along
  case unknown =>
    rintro inProgress name undefined follows nodup _ _ ⟨⟩
  case inside =>
    rintro inProgress name f id _ active defined failed follows nodup fragment chain rfl
    obtain ⟨other, spreads, reports⟩ := failed.spreads_of_fragment rfl
    have longer : (inProgress ++ [name] ++ [other]).IsChain (document.Spreads view) := by
      refine follows.append (List.isChain_singleton other) ?_
      intro last isLast next isNext
      simp only [List.getLast?_append, List.getLast?_singleton, Option.some_or,
        Option.mem_some_iff] at isLast
      simp only [List.head?_cons, Option.mem_some_iff] at isNext
      subst isLast isNext
      exact ⟨f, defined, spreads⟩
    have apart : (inProgress ++ [name]).Nodup := by
      refine List.nodup_append.mpr ⟨nodup, List.nodup_singleton name, ?_⟩
      intro a mem b single same
      rw [List.mem_singleton] at single
      exact active (single ▸ same ▸ mem)
    obtain ⟨circle, leads⟩ := reports longer apart fragment chain rfl
    refine ⟨circle, fun start head => leads start ?_⟩
    rw [List.head?_append, Option.mem_def.mp head]
    rfl

end Build

/-! ## Fragments that are built -/

/-- Nothing leads from an accessible fragment back to it. -/
theorem not_transGen_of_acc {α : Type} {r : α → α → Prop} {a : α} (h : Acc (fun x y => r y x) a) :
    ¬ Relation.TransGen r a a := by
  induction h with
  | intro a _ ih =>
      intro circle
      obtain ⟨b, first, back⟩ := Relation.TransGen.head'_iff.mp circle
      exact ih b first (Relation.TransGen.tail' back first)

/-- A fragment that is built spreads only fragments that were built before it. -/
theorem Library.acc {built : List NamedFragment} (h : Library view document built) :
    ∀ g ∈ built, Acc (fun a b => document.Spreads view b a) g.name := by
  refine h.induction ?_
  intro built f name text id b library earlier defined walked
  have named := Document.name_of_fragment? defined
  constructor
  rintro other ⟨f', defined', spreads⟩
  rw [NamedFragment.name, named, defined] at defined'
  cases defined'
  obtain ⟨g, found⟩ := walked.found spreads
  obtain ⟨mem, rfl⟩ := NamedFragment.mem_of_find? found
  exact earlier g mem

/-- No definition that is built involves a circle. -/
theorem WalkedFrom.not_involvesCircle {built : List NamedFragment} {source : SourceDefinition}
    {rootName : Name} {b : BuiltSelections} (library : Library view document built)
    (h : WalkedFrom view built source rootName b) :
    ¬ source.definition.InvolvesCircle view document := by
  rintro ⟨name, f, defined, involved, circle⟩
  obtain ⟨earlier, id, rootName, b', library, walked⟩ := h.involved library involved
  -- The next fragment on the circle was built before, and the circle leads back to it.
  obtain ⟨other, ⟨f', defined', spreads⟩, back⟩ := Relation.TransGen.head'_iff.mp circle
  cases defined.symm.trans defined'
  obtain ⟨g, found⟩ := walked.found spreads
  obtain ⟨mem, rfl⟩ := NamedFragment.mem_of_find? found
  have again : Relation.TransGen (document.Spreads view) g.name g.name :=
    .tail' back ⟨f, defined, spreads⟩
  exact not_transGen_of_acc (library.acc g mem) again

/-! ## Sessions -/

/-- A session that reports a circle for a definition involves it. -/
theorem Session.Outcome.circle {s : Session} {d : ExecutableDefinition} {fragment : Name}
    {chain : List Name} (h : s.Outcome d (.error (.cyclicFragment fragment chain))) :
    s.document.Circle s.view fragment chain
      ∧ ∃ f, s.document.fragment? fragment = some f
        ∧ d.Involves s.view s.document (.fragment f.definition) := by
  -- It is enough that spreads lead to the circle from some fragment that is involved.
  suffices leads : s.document.Circle s.view fragment chain
      ∧ ∃ name f, s.document.fragment? name = some f
        ∧ d.Involves s.view s.document (.fragment f.definition)
        ∧ Relation.ReflTransGen (s.document.Spreads s.view) name fragment by
    obtain ⟨circle, name, f, defined, involved, path⟩ := leads
    obtain ⟨_, ⟨g, last, -⟩, -⟩ := Relation.TransGen.head'_iff.mp circle.transGen
    exact ⟨circle, g, last, involved.follow defined path last⟩
  rcases h.failed with ⟨o, rfl, failed⟩ | ⟨name, f, defined, rfl, failed⟩
  · have failedFrom := Session.buildOperation_failed failed
    obtain ⟨name, spreads, q, answer⟩ := failedFrom.spreads_of_fragment rfl
    have reports := Build.fragmentNamed_circle [] name answer
    obtain ⟨circle, leads⟩ := reports (List.isChain_singleton name) .nil fragment chain rfl
    have path := leads name rfl
    -- The first fragment is defined, because it is on the circle or leads on to it.
    have onwards : ∃ g, s.document.fragment? name = some g := by
      rcases Relation.ReflTransGen.cases_head path with rfl | ⟨_, ⟨g, defined, -⟩, -⟩
      · obtain ⟨_, ⟨g, defined, -⟩, -⟩ := Relation.TransGen.head'_iff.mp circle.transGen
        exact ⟨g, defined⟩
      · exact ⟨g, defined⟩
    obtain ⟨g, defined⟩ := onwards
    exact ⟨circle, name, g, defined, .spread .self spreads defined, path⟩
  · have reports := Build.fragmentNamed_circle [] name (Session.buildFragment_failed failed)
    obtain ⟨circle, leads⟩ := reports (List.isChain_singleton name) .nil fragment chain rfl
    exact ⟨circle, name, f, defined, .self, leads name rfl⟩

/-- The building of a definition goes no deeper than there are fragments.  It fails if spreads lead
from the definition to a fragment that they lead back to; what it reports as such a circle is one, to
which spreads lead from the definition; so it reports none where there is none. -/
theorem circles_of_spreads_are_found (document : Document) (s : Session)
    (reachable : s.Reachable document) :
    (∀ rest, Build.unfolded s.view document rest (document.fragments.length + 1) []
        = Build.fragmentNamed s.view document [])
      ∧ ∀ (d : ExecutableDefinition) (r : Except BuildError BuiltSelections), s.Outcome d r →
        (∀ fragment chain, r = .error (.cyclicFragment fragment chain) →
          document.Circle s.view fragment chain
            ∧ ∃ f, document.fragment? fragment = some f
              ∧ d.Involves s.view document (.fragment f.definition))
        ∧ (d.InvolvesCircle s.view document → ∃ e, r = .error e)
        ∧ (¬ d.InvolvesCircle s.view document →
          ∀ fragment chain, r ≠ .error (.cyclicFragment fragment chain)) := by
  have same := reachable.sound.same
  refine ⟨fun rest => ?_, fun d r outcome => ⟨?_, ?_, ?_⟩⟩
  · funext name
    refine Build.unfolded_eq rest _ [] name ?_
    rw [Build.waiting_nil]
    exact Nat.lt_succ_self _
  · rintro fragment chain rfl
    exact same ▸ outcome.circle
  · intro involved
    cases r with
    | error e => exact ⟨e, rfl⟩
    | ok b =>
        obtain ⟨built, id, rootName, library, walked⟩ := (outcome.builds reachable).walked reachable
        exact absurd involved (walked.not_involvesCircle library)
  · rintro noCircle fragment chain rfl
    obtain ⟨circle, f, defined, involved⟩ := outcome.circle
    rw [same] at circle defined involved
    exact noCircle ⟨fragment, f, defined, involved, circle.transGen⟩

/-- `query { hero { ...Friendly } }`, where friendly heroes have named friends, who are friendly in
turn: the circle is reported from its first fragment on. -/
theorem friendly_heroes_are_a_circle :
    let friend := Heroes.heroField "friend" [] [.fragmentSpread "Named" []]
    let o := Heroes.query [.field (Heroes.heroField "hero" [] [.fragmentSpread "Friendly" []])]
    let document : Document := ⟨[o], [⟨⟨"Friendly", "Hero", [], [.field friend]⟩, none⟩,
      ⟨⟨"Named", "Hero", [], [.field Heroes.nameField, .fragmentSpread "Friendly" []]⟩, none⟩]⟩
    ∃ s : Session, s.Reachable document
      ∧ s.Outcome (.operation o.definition)
        (.error (.cyclicFragment "Friendly" ["Friendly", "Named", "Friendly"]))
      ∧ document.Circle s.view "Friendly" ["Friendly", "Named", "Friendly"]
      ∧ (ExecutableDefinition.operation o.definition).InvolvesCircle s.view document := by
  intro friend o document
  obtain ⟨s, reachable, outcome⟩ := Session.exists_outcome document Heroes.schema o
    (.cyclicFragment "Friendly" ["Friendly", "Named", "Friendly"]) (by decide +kernel)
  obtain ⟨found, -, none⟩ := (circles_of_spreads_are_found document s reachable).2 _ _ outcome
  obtain ⟨circle, -⟩ := found _ _ rfl
  exact ⟨s, reachable, outcome, circle, not_not.mp fun noCircle => none noCircle _ _ rfl⟩
end SelectionGraph
