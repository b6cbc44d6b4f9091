import SelectionGraph.Proofs.Direct.Faithful
import SelectionGraph.Proofs.Ordered.Addressed
import SelectionGraph.Proofs.Session.Cycles

/-!
# References — the fragments that a definition lists

A definition that is built lists the fragments it uses.  The list is put together from the lists of
the fragments that its walk comes to spreads of, each fragment being walked only once.  It is what a
walk would list that goes into the fragments themselves:

* `Expands`             — the names of the spreads that such a walk comes to, in its order;
* `Expands.mem_iff`     — they are the names that spreads lead to;
* `Walked.expands`      — the names that a walk lists are these, each where it comes first;
* `fragments_are_listed_in_order_of_first_reference` — so does every definition that is built.
-/

namespace SelectionGraph

variable {view : SchemaView} {document : Document} {built : List NamedFragment}

/-! ## The expanded walk -/

/-- The names of the fragments whose spreads a walk of some selections comes to, in its order.  The
walk goes from each spread into the selections of its fragment, and only then on to what follows
it. -/
inductive Expands (view : SchemaView) (document : Document) : List Selection → List Name → Prop
  | nil : Expands view document [] []
  | skipped {s : Selection} {ss : List Selection} {names : List Name} (skips : s.Skipped)
      (rest : Expands view document ss names) : Expands view document (s :: ss) names
  | leaf {f : FieldSelection} {ss : List Selection} {names : List Name}
      (kept : ¬ (Selection.field f).Skipped) (isLeaf : view.isComposite f.type.innerName ≠ .ok true)
      (rest : Expands view document ss names) : Expands view document (.field f :: ss) names
  | entity {f : FieldSelection} {ss : List Selection} {below names : List Name}
      (kept : ¬ (Selection.field f).Skipped)
      (isComposite : view.isComposite f.type.innerName = .ok true)
      (inner : Expands view document f.selections below) (rest : Expands view document ss names) :
      Expands view document (.field f :: ss) (below ++ names)
  | inline {condition : Option Name} {directives : List Directive} {inside ss : List Selection}
      {below names : List Name}
      (kept : ¬ (Selection.inlineFragment condition directives inside).Skipped)
      (inner : Expands view document inside below) (rest : Expands view document ss names) :
      Expands view document (.inlineFragment condition directives inside :: ss) (below ++ names)
  | spread {name : Name} {directives : List Directive} {f : Sourced FragmentDefinition}
      {ss : List Selection} {below names : List Name}
      (kept : ¬ (Selection.fragmentSpread name directives).Skipped)
      (defined : document.fragment? name = some f)
      (body : Expands view document f.definition.selections below)
      (rest : Expands view document ss names) :
      Expands view document (.fragmentSpread name directives :: ss) (name :: below ++ names)

namespace Expands

variable {ss : List Selection} {names names' : List Name}

/-- Nothing is left open: there is one order. -/
theorem unique (h : Expands view document ss names) (h' : Expands view document ss names') :
    names = names' := by
  induction h generalizing names' with
  | nil => cases h'; rfl
  | skipped skips _ ih =>
      cases h' with
      | skipped _ rest => exact ih rest
      | leaf kept | entity kept | inline kept | spread kept => exact absurd skips kept
  | leaf kept isLeaf _ ih =>
      cases h' with
      | skipped skips => exact absurd skips kept
      | leaf _ _ rest => exact ih rest
      | entity _ isComposite => exact absurd isComposite isLeaf
  | entity kept isComposite _ _ ihInner ih =>
      cases h' with
      | skipped skips => exact absurd skips kept
      | leaf _ isLeaf => exact absurd isComposite isLeaf
      | entity _ _ inner rest => rw [ihInner inner, ih rest]
  | inline kept _ _ ihInner ih =>
      cases h' with
      | skipped skips => exact absurd skips kept
      | inline _ inner rest => rw [ihInner inner, ih rest]
  | spread kept defined _ _ ihBody ih =>
      cases h' with
      | skipped skips => exact absurd skips kept
      | spread _ defined' body rest =>
          cases defined.symm.trans defined'
          rw [ihBody body, ih rest]

end Expands

/-- Spreads lead from some selections to a fragment. -/
def LeadsTo (view : SchemaView) (document : Document) (ss : List Selection) (name : Name) : Prop :=
  ∃ first, Spreads view ss first ∧ Relation.ReflTransGen (document.Spreads view) first name

namespace LeadsTo

variable {s : Selection} {ss : List Selection} {name : Name}

theorem not_nil : ¬ LeadsTo view document [] name := by
  rintro ⟨first, ⟨directives, visited⟩, -⟩
  exact Visited.not_nil visited

/-- Selections that come to the same spreads lead to the same fragments. -/
theorem of_visited_iff {ts : List Selection}
    (same : ∀ first directives, Visited view ss (.fragmentSpread first directives)
      ↔ Visited view ts (.fragmentSpread first directives)) :
    LeadsTo view document ss name ↔ LeadsTo view document ts name := by
  unfold LeadsTo Spreads
  simp only [same]

theorem cons_iff : LeadsTo view document (s :: ss) name
    ↔ LeadsTo view document [s] name ∨ LeadsTo view document ss name := by
  unfold LeadsTo Spreads
  simp only [@Visited.cons_iff view ss, exists_or, or_and_right]

theorem not_skipped (skips : s.Skipped) : ¬ LeadsTo view document [s] name := by
  rintro ⟨first, ⟨directives, visited⟩, -⟩
  exact Visited.not_skipped skips visited

theorem field_iff {f : FieldSelection} (kept : ¬ (Selection.field f).Skipped) :
    LeadsTo view document [.field f] name
      ↔ view.isComposite f.type.innerName = .ok true ∧ LeadsTo view document f.selections name := by
  unfold LeadsTo Spreads
  simp only [Visited.field_iff kept, reduceCtorEq, false_or, exists_and_left, and_assoc]

theorem inline_iff {condition : Option Name} {directives : List Directive} {inside : List Selection}
    (kept : ¬ (Selection.inlineFragment condition directives inside).Skipped) :
    LeadsTo view document [.inlineFragment condition directives inside] name
      ↔ LeadsTo view document inside name :=
  of_visited_iff fun first directives => by simp [Visited.inline_iff kept]

/-- A spread leads to its fragment, and to what the fragment's selections lead to. -/
theorem spread_iff {other : Name} {directives : List Directive} {f : Sourced FragmentDefinition}
    (kept : ¬ (Selection.fragmentSpread other directives).Skipped)
    (defined : document.fragment? other = some f) :
    LeadsTo view document [.fragmentSpread other directives] name
      ↔ name = other ∨ LeadsTo view document f.definition.selections name := by
  have first : ∀ first, Spreads view [.fragmentSpread other directives] first ↔ first = other := by
    intro first
    simp [Spreads, Visited.spread_iff kept]
  have second : ∀ second, document.Spreads view other second
      ↔ Spreads view f.definition.selections second := by
    intro second
    simp [Document.Spreads, defined]
  unfold LeadsTo
  simp only [first, exists_eq_left, Relation.ReflTransGen.cases_head_iff (a := other), second]
  rw [eq_comm]

end LeadsTo

/-- The expanded walk comes to the fragments that spreads lead to, and to no others. -/
theorem Expands.mem_iff {ss : List Selection} {names : List Name}
    (h : Expands view document ss names) (name : Name) :
    name ∈ names ↔ LeadsTo view document ss name := by
  induction h with
  | nil => simp [LeadsTo.not_nil]
  | skipped skips _ ih => rw [LeadsTo.cons_iff, or_iff_right (LeadsTo.not_skipped skips), ih]
  | leaf kept isLeaf _ ih =>
      rw [LeadsTo.cons_iff, LeadsTo.field_iff kept, or_iff_right fun h => isLeaf h.1, ih]
  | entity kept isComposite _ _ ihInner ih =>
      rw [LeadsTo.cons_iff, LeadsTo.field_iff kept, and_iff_right isComposite, List.mem_append,
        ihInner, ih]
  | inline kept _ _ ihInner ih =>
      rw [LeadsTo.cons_iff, LeadsTo.inline_iff kept, List.mem_append, ihInner, ih]
  | spread kept defined _ _ ihBody ih =>
      rw [LeadsTo.cons_iff, LeadsTo.spread_iff kept defined, List.mem_append, List.mem_cons, ihBody,
        ih]

/-! ## The list of a walk -/

/-- A fragment is listed after those before it, unless one of its name is. -/
theorem map_name_addReference (refs : List NamedFragment) (f : NamedFragment) :
    (Walk.addReference refs f).map NamedFragment.name =
      if f.name ∈ refs.map NamedFragment.name then refs.map NamedFragment.name
      else refs.map NamedFragment.name ++ [f.name] := by
  have listed : (refs.any fun g => g.name == f.name) = true
      ↔ f.name ∈ refs.map NamedFragment.name := by
    simp
  unfold Walk.addReference
  by_cases known : f.name ∈ refs.map NamedFragment.name
  · rw [if_pos (listed.mpr known), if_pos known]
  · rw [if_neg (mt listed.mp known), if_neg known, List.map_append]
    rfl

/-- Where a list says what comes first among some names, with more fragments it says so of the names
together with theirs. -/
theorem map_name_addReferences {names : List Name} {refs fs : List NamedFragment}
    (lists : refs.map NamedFragment.name = names.eraseDups) :
    (fs.foldl Walk.addReference refs).map NamedFragment.name =
      (names ++ fs.map NamedFragment.name).eraseDups := by
  induction fs generalizing names refs with
  | nil => simpa using lists
  | cons f fs ih =>
      have one : (Walk.addReference refs f).map NamedFragment.name =
          (names ++ [f.name]).eraseDups := by
        rw [map_name_addReference, lists, eraseDups_concat]
        simp
      rw [List.foldl_cons, ih one, List.map_cons, List.append_assoc]
      rfl

/-- A definition lists the names that its selections expand to, each where it comes first. -/
def BuiltSelections.Lists (view : SchemaView) (document : Document) (ss : List Selection)
    (b : BuiltSelections) : Prop :=
  ∃ names, Expands view document ss names
    ∧ b.referenced.map NamedFragment.name = names.eraseDups

/-- A walk adds the names that the selections expand to, if its fragments list theirs. -/
theorem Walked.expands (library : Library view document built)
    (fragments : ∀ g ∈ built, g.built.Lists view document g.definition.selections)
    {info : TypeInfo} {direct direct' : DirectSelections} {draft draft' : Draft}
    {ss : List Selection} (h : Walked view built info direct draft ss direct' draft') :
    ∃ names, Expands view document ss names ∧ ∀ before,
      draft.referenced.map NamedFragment.name = before.eraseDups →
        draft'.referenced.map NamedFragment.name = (before ++ names).eraseDups := by
  induction h with
  | nil => exact ⟨[], .nil, fun before lists => by simpa using lists⟩
  | skipped skips _ ih =>
      obtain ⟨names, expands, lists⟩ := ih
      exact ⟨names, .skipped skips expands, lists⟩
  | leaf included isLeaf _ _ ih =>
      obtain ⟨names, expands, lists⟩ := ih
      refine ⟨names, .leaf (Selection.not_skipped included) ?_ expands, lists⟩
      rw [isLeaf]
      exact nofun
  | entity included isComposite _ _ _ _ ihInner ih =>
      obtain ⟨below, inner, listsBelow⟩ := ihInner
      obtain ⟨names, expands, lists⟩ := ih
      refine ⟨below ++ names, .entity (Selection.not_skipped included) isComposite inner expands, ?_⟩
      intro before starts
      rw [← List.append_assoc]
      exact lists _ (listsBelow before starts)
  | flat read scope _ _ _ _ ihInside ih | inline read scope _ _ _ _ _ ihInside ih =>
      obtain ⟨below, inner, listsBelow⟩ := ihInside
      obtain ⟨names, expands, lists⟩ := ih
      have included := Inclusion.ofDirectives_of_verdict read
      rw [scope] at included
      refine ⟨below ++ names, .inline (Selection.not_skipped included) inner expands, ?_⟩
      intro before starts
      rw [← List.append_assoc]
      exact lists _ (listsBelow before starts)
  | @spread info direct _ _ draft _ _ name directives ss _ _ fragment included _ found _ _ _ ih =>
      obtain ⟨mem, rfl⟩ := NamedFragment.mem_of_find? found
      obtain ⟨f, defined, same⟩ := library.defined fragment mem
      obtain ⟨below, body, listsBelow⟩ := fragments fragment mem
      obtain ⟨names, expands, lists⟩ := ih
      rw [← same] at body
      refine ⟨fragment.name :: below ++ names,
        .spread (Selection.not_skipped included) defined body expands, ?_⟩
      intro before starts
      -- The fragment's own list says what comes first in its body, which is all that matters here.
      have referenced := calc
        ((fragment :: fragment.built.referenced).foldl Walk.addReference draft.referenced).map
            NamedFragment.name
          = (before ++ fragment.name :: below.eraseDups).eraseDups := by
            rw [map_name_addReferences starts, List.map_cons, listsBelow]
        _ = (before ++ [fragment.name] ++ below).eraseDups := by
            rw [← eraseDups_append_eraseDups (before ++ [fragment.name]), List.append_assoc]
            rfl
      have whole := lists _ referenced
      rw [whole]
      simp

theorem WalkedFrom.lists (library : Library view document built)
    (fragments : ∀ g ∈ built, g.built.Lists view document g.definition.selections)
    {source : SourceDefinition} {rootName : Name} {b : BuiltSelections}
    (h : WalkedFrom view built source rootName b) :
    b.Lists view document source.definition.selections := by
  obtain ⟨direct, draft, walked, rfl⟩ := h
  obtain ⟨names, expands, lists⟩ := walked.expands library fragments
  exact ⟨names, expands, lists [] rfl⟩

theorem Library.lists (h : Library view document built) :
    ∀ g ∈ built, g.built.Lists view document g.definition.selections :=
  h.induction fun _ _ _ _ _ _ library earlier _ walked => walked.lists library earlier

/-! ## Fragments that are listed -/

namespace BuiltSelections

variable {ss : List Selection} {b : BuiltSelections}

theorem Lists.nodup (h : b.Lists view document ss) :
    (b.referenced.map NamedFragment.name).Nodup := by
  obtain ⟨names, -, lists⟩ := h
  rw [lists]
  exact nodup_eraseDups names

/-- What is listed is what spreads lead to. -/
theorem Lists.mem_iff (h : b.Lists view document ss) (name : Name) :
    name ∈ b.referenced.map NamedFragment.name ↔ LeadsTo view document ss name := by
  obtain ⟨names, expands, lists⟩ := h
  rw [lists, List.mem_eraseDups, expands.mem_iff]

end BuiltSelections

/-- What a fragment leads to, whatever leads to the fragment leads to. -/
theorem LeadsTo.follow {ss : List Selection} {name other : Name} {f : Sourced FragmentDefinition}
    (h : LeadsTo view document ss name) (defined : document.fragment? name = some f)
    (onwards : LeadsTo view document f.definition.selections other) :
    LeadsTo view document ss other := by
  obtain ⟨first, spreads, path⟩ := h
  obtain ⟨second, next, rest⟩ := onwards
  exact ⟨first, spreads, path.trans (.head ⟨f, defined, next⟩ rest)⟩

/-- What a listed fragment lists is listed. -/
theorem BuiltSelections.Refers.closed {ss : List Selection} {b : BuiltSelections}
    (library : Library view document built) (refers : b.Refers built)
    (lists : b.Lists view document ss) :
    ∀ f ∈ b.referenced, ∀ g ∈ f.built.referenced, g ∈ b.referenced := by
  intro f listed g inner
  have mem := (NamedFragment.mem_of_find? (refers f listed)).1
  obtain ⟨source, defined, same⟩ := library.defined f mem
  -- The fragment leads to what it lists, and so does whatever leads to the fragment.
  have leads := (lists.mem_iff f.name).mp (List.mem_map_of_mem listed)
  have onwards := ((library.lists f mem).mem_iff g.name).mp (List.mem_map_of_mem inner)
  rw [← same] at onwards
  obtain ⟨g', listed', named⟩ :=
    List.mem_map.mp ((lists.mem_iff g.name).mpr (leads.follow defined onwards))
  have found := refers g' listed'
  rw [named, library.closed f mem g inner] at found
  cases found
  exact listed'

/-- Nothing that is built leads back to itself. -/
theorem not_leadsTo_self {name : Name} {f : Sourced FragmentDefinition}
    (defined : document.fragment? name = some f)
    (acyclic : ¬ Relation.TransGen (document.Spreads view) name name) :
    ¬ LeadsTo view document f.definition.selections name := by
  rintro ⟨first, spreads, back⟩
  exact acyclic (.head' ⟨f, defined, spreads⟩ back)

theorem Library.not_listed_self (library : Library view document built) :
    ∀ g ∈ built, g.name ∉ g.built.referenced.map NamedFragment.name := by
  intro g mem
  obtain ⟨f, defined, same⟩ := library.defined g mem
  rw [(library.lists g mem).mem_iff, ← same]
  exact not_leadsTo_self defined (not_transGen_of_acc (library.acc g mem))

/-! ## Sessions -/

/-- A fragment that is built is the document's. -/
theorem Session.Builds.defined {s : Session} {f : FragmentDefinition} {b : BuiltSelections}
    (reachable : s.Reachable document) (h : s.Builds (.fragment f) b) :
    ∃ source, document.fragment? f.name = some source ∧ source.definition = f := by
  generalize same : ExecutableDefinition.fragment f = d at h
  cases h with
  | operation => cases same
  | @fragment name g built =>
      cases same
      have sound := reachable.sound.run (Build.fragmentNamed_spec s.view s.document [] name).1
      have mem := (NamedFragment.mem_of_find? (Session.find?_buildFragment built)).1
      exact sound.library.defined g mem

/-- A definition that is built lists what it uses.  A walk that goes from each spread into the
selections of its fragment comes to spreads in some order; the list has their names, each where it
comes first.  So it lists no name twice, and exactly the fragments that spreads lead to; it lists
what a listed fragment lists; and no fragment lists itself. -/
theorem fragments_are_listed_in_order_of_first_reference (document : Document) (s : Session)
    (reachable : s.Reachable document) (d : ExecutableDefinition) (b : BuiltSelections)
    (builds : s.Builds d b) :
    (∃ names, Expands s.view document d.selections names
        ∧ b.referenced.map NamedFragment.name = names.eraseDups)
      ∧ (b.referenced.map NamedFragment.name).Nodup
      ∧ (∀ name, name ∈ b.referenced.map NamedFragment.name
          ↔ LeadsTo s.view document d.selections name)
      ∧ (∀ f ∈ b.referenced, (document.fragment? f.name).map Sourced.definition = some f.definition)
      ∧ (∀ f ∈ b.referenced, ∀ g ∈ f.built.referenced, g ∈ b.referenced)
      ∧ (∀ f ∈ b.referenced, f.name ∉ f.built.referenced.map NamedFragment.name)
      ∧ ∀ f, d = .fragment f → f.name ∉ b.referenced.map NamedFragment.name := by
  obtain ⟨built, id, rootName, library, walked⟩ := builds.walked reachable
  have lists : b.Lists s.view document d.selections := walked.lists library library.lists
  have refers := (walked.faithful library.inlined library.closed).2
  have held : ∀ f ∈ b.referenced, f ∈ built := fun f listed =>
    (NamedFragment.mem_of_find? (refers f listed)).1
  refine ⟨lists, lists.nodup, lists.mem_iff, ?_, refers.closed library lists, ?_, ?_⟩
  · intro f listed
    obtain ⟨source, defined, same⟩ := library.defined f (held f listed)
    rw [defined, Option.map_some, same]
  · exact fun f listed => library.not_listed_self f (held f listed)
  · rintro f rfl
    obtain ⟨source, defined, same⟩ := builds.defined reachable
    rw [lists.mem_iff]
    have apart := not_leadsTo_self defined fun circle =>
      walked.not_involvesCircle library ⟨f.name, source, defined, same ▸ .self, circle⟩
    exact same ▸ apart

/-- `query { hero { ...Paired ...Named } }`, where `Paired` spreads `Last` below a friend and then
`Named`, which spreads `Last` too: `Last` comes before `Named`, which the query spreads itself. -/
theorem last_is_listed_before_named :
    let spread := fun name => Selection.fragmentSpread name []
    let o := Heroes.query
      [.field (Heroes.heroField "hero" [] [spread "Paired", spread "Named"])]
    let paired : FragmentDefinition :=
      ⟨"Paired", "Hero", [], [.field (Heroes.heroField "friend" [] [spread "Last"]), spread "Named"]⟩
    let named : FragmentDefinition :=
      ⟨"Named", "Hero", [], [.field Heroes.nameField, spread "Last"]⟩
    let last : FragmentDefinition := ⟨"Last", "Hero", [], [.field Heroes.nameField]⟩
    let document : Document := ⟨[o], [⟨paired, none⟩, ⟨named, none⟩, ⟨last, none⟩]⟩
    ∃ (s : Session) (b : BuiltSelections), s.Reachable document
      ∧ s.Builds (.operation o.definition) b
      ∧ b.referenced.map NamedFragment.name = ["Paired", "Last", "Named"] := by
  intro spread o paired named last document
  obtain ⟨s, b, reachable, known, builds, -⟩ :=
    Session.exists_builds document Heroes.schema o (fun _ => true) (by decide +kernel)
  obtain ⟨⟨names, expands, lists⟩, -⟩ :=
    fragments_are_listed_in_order_of_first_reference document s reachable _ b builds
  have kept : ∀ {selection : Selection}, selection.directives = [] → ¬ selection.Skipped := by
    intro selection bare
    have always : Inclusion.ofDirectives selection.directives = .ok (some .always) := by
      rw [bare]
      rfl
    exact Selection.not_skipped always
  -- The rules of the expanded walk for this document, with their lists of names computed.
  have onName : ∀ {ss : List Selection} {names : List Name}, Expands s.view document ss names →
      Expands s.view document (.field Heroes.nameField :: ss) names := by
    refine .leaf (kept rfl) ?_
    rw [show s.view.isComposite Heroes.nameField.type.innerName = _ from
      Heroes.isComposite_string known]
    exact nofun
  have onHero : ∀ {name : Name} {inner ss : List Selection} {below names all : List Name},
      Expands s.view document inner below → Expands s.view document ss names →
      below ++ names = all →
      Expands s.view document (.field (Heroes.heroField name [] inner) :: ss) all := by
    rintro name inner ss below names all onInner rest rfl
    exact .entity (kept rfl) (Heroes.isComposite_hero known) onInner rest
  have onSpread : ∀ {name : Name} {f : Sourced FragmentDefinition} {ss : List Selection}
      {below names all : List Name}, document.fragment? name = some f →
      Expands s.view document f.definition.selections below → Expands s.view document ss names →
      name :: below ++ names = all → Expands s.view document (spread name :: ss) all := by
    rintro name f ss below names all defined body rest rfl
    exact .spread (kept rfl) defined body rest
  have inLast : Expands s.view document last.selections [] := onName .nil
  have inNamed : Expands s.view document named.selections ["Last"] :=
    onName (onSpread rfl inLast .nil rfl)
  have inPaired : Expands s.view document paired.selections ["Last", "Named", "Last"] :=
    onHero (onSpread rfl inLast .nil rfl) (onSpread rfl inNamed .nil rfl) rfl
  have whole : Expands s.view document o.definition.selections
      ["Paired", "Last", "Named", "Last", "Named", "Last"] :=
    onHero (onSpread rfl inPaired (onSpread rfl inNamed .nil rfl) rfl) .nil rfl
  refine ⟨s, b, reachable, builds, ?_⟩
  rw [lists, expands.unique whole]
  decide

end SelectionGraph
