import SelectionGraph.Proofs.Direct.Sites
import SelectionGraph.Proofs.Session.Deferred
import SelectionGraph.Proofs.Session.References

/-!
# Deferred — deferred fragments in direct selections

A walk notes that it comes by a deferred fragment at once, whereas the fragments are put together
afterwards.  Deferral is part of the key under which fragments are put together, so that none is lost
or made up.

* `DirectSelections.HasDeferred` — a fragment is deferred, at any depth;
* `Merging.hasDeferred_iff`      — putting selections together keeps the deferred fragments of both;
* `Walked.hasDeferred_iff`       — a walk adds those that it comes to;
* `deferred_fragments_are_noted` — what a definition notes is what its direct selections have, or the
  fragments that it lists have noted.
-/

namespace SelectionGraph

variable {view : SchemaView} {document : Document} {built : List NamedFragment}

/-! ## Selections -/

namespace Selection

theorem deferred_iff {s : Selection} : s.Deferred ↔ s.isFragment = true ∧ ∃ deferral,
    Deferral.ofDirectives s.directives = .ok deferral ∧ deferral.isDeferred = true := by
  refine and_congr_right fun _ => ⟨fun deferred => ?_, ?_⟩
  · cases read : Deferral.ofDirectives s.directives with
    | ok deferral => exact ⟨deferral, rfl, by rwa [Deferral.said_eq read] at deferred⟩
    | error e =>
        rw [Deferral.said, read] at deferred
        exact absurd deferred Bool.false_ne_true
  · rintro ⟨deferral, read, deferred⟩
    rwa [Deferral.said_eq read]

theorem not_deferred_field {f : FieldSelection} : ¬ (Selection.field f).Deferred := by
  rintro ⟨never, -⟩
  cases never

theorem deferred_inline {condition : Option Name} {directives : List Directive}
    {inner : List Selection} {deferral : Deferral}
    (read : Deferral.ofDirectives directives = .ok deferral) :
    (Selection.inlineFragment condition directives inner).Deferred ↔ deferral.isDeferred = true := by
  simp [Deferred, isFragment, Selection.directives, Deferral.said_eq read]

theorem deferred_spread {name : Name} {directives : List Directive} {deferral : Deferral}
    (read : Deferral.ofDirectives directives = .ok deferral) :
    (Selection.fragmentSpread name directives).Deferred ↔ deferral.isDeferred = true := by
  simp [Deferred, isFragment, Selection.directives, Deferral.said_eq read]

end Selection

/-! ## Direct selections -/

/-- A fragment is deferred in direct selections, at any depth. -/
inductive DirectSelections.HasDeferred : DirectSelections → Prop
  | inline {d : DirectSelections} {s : InlineSpread} (mem : s ∈ d.inlineFragments)
      (deferred : s.deferral.isDeferred = true) : HasDeferred d
  | spread {d : DirectSelections} {s : NamedSpread} (mem : s ∈ d.namedFragments)
      (deferred : s.deferral.isDeferred = true) : HasDeferred d
  | inField {d : DirectSelections} {e : EntityField} (mem : .entity e ∈ d.fields)
      (inner : HasDeferred e.selectionSet.direct) : HasDeferred d
  | inInline {d : DirectSelections} {s : InlineSpread} (mem : s ∈ d.inlineFragments)
      (inner : HasDeferred s.selectionSet.direct) : HasDeferred d

def Field.HasDeferred (f : Field) : Prop :=
  ∃ e, f = .entity e ∧ e.selectionSet.direct.HasDeferred

def InlineSpread.HasDeferred (s : InlineSpread) : Prop :=
  s.deferral.isDeferred = true ∨ s.selectionSet.direct.HasDeferred

namespace DirectSelections

variable {d added r : DirectSelections} {fields : List Field} {inlines : List InlineSpread}
  {spreads : List NamedSpread}

theorem hasDeferred_iff : d.HasDeferred ↔ (∃ f ∈ d.fields, f.HasDeferred)
    ∨ (∃ s ∈ d.inlineFragments, s.HasDeferred)
    ∨ ∃ s ∈ d.namedFragments, s.deferral.isDeferred = true := by
  constructor
  · intro h
    cases h with
    | inline mem deferred => exact Or.inr (Or.inl ⟨_, mem, Or.inl deferred⟩)
    | spread mem deferred => exact Or.inr (Or.inr ⟨_, mem, deferred⟩)
    | inField mem inner => exact Or.inl ⟨_, mem, _, rfl, inner⟩
    | inInline mem inner => exact Or.inr (Or.inl ⟨_, mem, Or.inr inner⟩)
  · rintro (⟨_, mem, e, rfl, inner⟩ | ⟨s, mem, deferred | inner⟩ | ⟨s, mem, deferred⟩)
    · exact .inField mem inner
    · exact .inline mem deferred
    · exact .inInline mem inner
    · exact .spread mem deferred

theorem not_hasDeferred_empty : ¬ empty.HasDeferred := by
  simp [hasDeferred_iff, empty]

theorem hasDeferred_fields_cons {f : Field} : (mk (f :: fields) inlines spreads).HasDeferred
    ↔ f.HasDeferred ∨ (mk fields inlines spreads).HasDeferred := by
  simp [hasDeferred_iff, or_assoc]

theorem hasDeferred_inlines_cons {s : InlineSpread} : (mk [] (s :: inlines) spreads).HasDeferred
    ↔ s.HasDeferred ∨ (mk [] inlines spreads).HasDeferred := by
  simp [hasDeferred_iff, or_assoc]

theorem hasDeferred_spreads_cons {s : NamedSpread} : (mk [] [] (s :: spreads)).HasDeferred
    ↔ s.deferral.isDeferred = true ∨ (mk [] [] spreads).HasDeferred := by
  simp [hasDeferred_iff]

/-! ## Putting selections together -/

/-- A field that is put in the place of another adds the deferred fragments that it has beyond it. -/
theorem hasDeferred_putField {new f : Field} (key : new.responseKey = f.responseKey)
    (held : ∀ g, d.field? f.responseKey = some g → (new.HasDeferred ↔ g.HasDeferred ∨ f.HasDeferred))
    (unheld : d.field? f.responseKey = none → new = f) :
    (d.putField new).HasDeferred ↔ d.HasDeferred ∨ f.HasDeferred := by
  have fields : (∃ g ∈ (d.putField new).fields, g.HasDeferred)
      ↔ (∃ g ∈ d.fields, g.HasDeferred) ∨ f.HasDeferred := exists_putField key held unheld
  rw [hasDeferred_iff, fields, hasDeferred_iff]
  exact or_right_comm

/-- So does an inline fragment. -/
theorem hasDeferred_putInline {new s : InlineSpread} (key : (new.key == s.key) = true)
    (held : ∀ t, d.inlineFragments.find? (fun t => t.key == s.key) = some t →
      (new.HasDeferred ↔ t.HasDeferred ∨ s.HasDeferred))
    (unheld : d.inlineFragments.find? (fun t => t.key == s.key) = none → new = s) :
    (d.putInline new).HasDeferred ↔ d.HasDeferred ∨ s.HasDeferred := by
  have inlines : (∃ t ∈ (d.putInline new).inlineFragments, t.HasDeferred)
      ↔ (∃ t ∈ d.inlineFragments, t.HasDeferred) ∨ s.HasDeferred := exists_putInline key held unheld
  rw [hasDeferred_iff, inlines, hasDeferred_iff]
  simp only [or_assoc, or_comm (a := s.HasDeferred)]
  rfl

/-- A spread that others are merged into has their deferral, which is part of their key. -/
theorem hasDeferred_addSpread {s : NamedSpread} :
    (d.addSpread s).HasDeferred ↔ d.HasDeferred ∨ s.deferral.isDeferred = true := by
  have spreads : (∃ t ∈ (d.addSpread s).namedFragments, t.deferral.isDeferred = true)
      ↔ (∃ t ∈ d.namedFragments, t.deferral.isDeferred = true) ∨ s.deferral.isDeferred = true := by
    refine Ordered.exists_upsert d.namedFragments ?_ fun _ => Iff.rfl
    intro t found
    have same : t.key = s.key := by simpa using List.find?_some found
    have deferral : t.deferral = s.deferral := congrArg Prod.snd same
    rw [← deferral, or_self]
  rw [hasDeferred_iff, spreads, hasDeferred_iff]
  simp only [or_assoc]
  rfl

/-- Putting selections together keeps the deferred fragments of both, and makes up none.  The induction
is on how they are put together. -/
theorem Merging.hasDeferred_iff (h : Merging d added r) :
    r.HasDeferred ↔ d.HasDeferred ∨ added.HasDeferred := by
  induction h with
  | done => exact (or_iff_left not_hasDeferred_empty).symm
  | newField new _ ih =>
      rw [ih, hasDeferred_fields_cons, ← or_assoc, hasDeferred_putField rfl ?_ fun _ => rfl]
      intro g found
      cases new.symm.trans found
  | @heldScalar d r held f fields inlines spreads found _ ih =>
      have key : (Field.scalar held).responseKey = f.responseKey := by
        simpa using List.find?_some found
      have first : (d.putField (.scalar { held with
          inclusion := held.inclusion.merge f.inclusion })).HasDeferred
            ↔ d.HasDeferred ∨ (Field.scalar f).HasDeferred := by
        refine hasDeferred_putField (f := .scalar f) key ?_ fun none => nomatch found.symm.trans none
        intro g found'
        cases found.symm.trans found'
        simp [Field.HasDeferred]
      rw [ih, first, hasDeferred_fields_cons, or_assoc]
  | @heldEntity d r below held e fields inlines spreads found same _ _ ihInside ih =>
      have key : (Field.entity held).responseKey = e.responseKey := by
        simpa using List.find?_some found
      have first : (d.putField (.entity { held with
          inclusion := held.inclusion.merge e.inclusion
          selectionSet := { held.selectionSet with direct := below } })).HasDeferred
            ↔ d.HasDeferred ∨ (Field.entity e).HasDeferred := by
        refine hasDeferred_putField (f := .entity e) key ?_ fun none => nomatch found.symm.trans none
        intro g found'
        cases found.symm.trans found'
        simpa only [Field.HasDeferred, Field.entity.injEq, exists_eq_left'] using ihInside
      rw [ih, first, hasDeferred_fields_cons, or_assoc]
  | newInline new _ ih =>
      rw [ih, hasDeferred_inlines_cons, ← or_assoc,
        hasDeferred_putInline (InlineSpread.key_refl _) ?_ fun _ => rfl]
      intro t found
      cases new.symm.trans found
  | @heldInline d r below held s inlines spreads found _ _ ihInside ih =>
      have first : (d.putInline { held with
          selectionSet := { held.selectionSet with direct := below } }).HasDeferred
            ↔ d.HasDeferred ∨ s.HasDeferred := by
        refine hasDeferred_putInline (List.find?_some found :) ?_
          fun none => nomatch found.symm.trans none
        intro t found'
        cases found.symm.trans found'
        -- Fragments of one key are both deferred, or neither is.
        have deferral := (InlineSpread.key_beq_iff.mp (List.find?_some found :)).2
        simp only [InlineSpread.HasDeferred]
        rw [ihInside, ← deferral]
        exact or_or_distrib_left
      rw [ih, first, hasDeferred_inlines_cons, or_assoc]
  | spread _ ih => rw [ih, hasDeferred_spreads_cons, ← or_assoc, hasDeferred_addSpread]

theorem hasDeferred_addField {f : Field} (h : d.addField f = .ok r) :
    r.HasDeferred ↔ d.HasDeferred ∨ f.HasDeferred := by
  rw [(merging_addField h).hasDeferred_iff, hasDeferred_fields_cons]
  exact or_congr_right (or_iff_left not_hasDeferred_empty)

theorem hasDeferred_addInline {s : InlineSpread} (h : d.addInline s = .ok r) :
    r.HasDeferred ↔ d.HasDeferred ∨ s.HasDeferred := by
  rw [(merging_addInline h).hasDeferred_iff, hasDeferred_inlines_cons]
  exact or_congr_right (or_iff_left not_hasDeferred_empty)

/-- A spread is deferred in the scope that it opens as it is without one: the scope itself is not. -/
theorem hasDeferred_walkAddSpread {info : TypeInfo} {s : NamedSpread}
    (h : Walk.addSpread info d s = .ok r) :
    r.HasDeferred ↔ d.HasDeferred ∨ s.deferral.isDeferred = true := by
  unfold Walk.addSpread at h
  split at h
  · cases h
    exact hasDeferred_addSpread
  · rw [hasDeferred_addInline h, InlineSpread.HasDeferred, hasDeferred_addSpread]
    simp [not_hasDeferred_empty, Deferral.isDeferred, Deferral.immediate]

end DirectSelections

/-- What is deferred in a set inside is deferred in the set around it. -/
theorem SelectionSet.Within.hasDeferred {outer set : SelectionSet} (h : outer.Within set)
    (inner : set.direct.HasDeferred) : outer.direct.HasDeferred := by
  induction h with
  | self => exact inner
  | field _ mem ih => exact ih (.inField mem inner)
  | inline _ mem ih => exact ih (.inInline mem inner)

/-- Read set by set, a fragment is deferred in one of the sets inside. -/
theorem SelectionSet.hasDeferred_iff {outer : SelectionSet} : outer.direct.HasDeferred
    ↔ ∃ set, outer.Within set ∧ ((∃ s ∈ set.direct.inlineFragments, s.deferral.isDeferred = true)
      ∨ ∃ s ∈ set.direct.namedFragments, s.deferral.isDeferred = true) := by
  constructor
  · intro h
    generalize same : outer.direct = d at h
    induction h generalizing outer with
    | inline mem deferred => exact ⟨outer, .self, Or.inl ⟨_, same ▸ mem, deferred⟩⟩
    | spread mem deferred => exact ⟨outer, .self, Or.inr ⟨_, same ▸ mem, deferred⟩⟩
    | inField mem _ ih =>
        obtain ⟨set, within, deferred⟩ := ih rfl
        exact ⟨set, (SelectionSet.Within.field .self (same ▸ mem)).trans within, deferred⟩
    | inInline mem _ ih =>
        obtain ⟨set, within, deferred⟩ := ih rfl
        exact ⟨set, (SelectionSet.Within.inline .self (same ▸ mem)).trans within, deferred⟩
  · rintro ⟨set, within, ⟨s, mem, deferred⟩ | ⟨s, mem, deferred⟩⟩
    · exact within.hasDeferred (.inline mem deferred)
    · exact within.hasDeferred (.spread mem deferred)

/-! ## Walks -/

/-- A fragment whose selections are put among those around it is not deferred. -/
theorem TypeInfo.immediate_of_flattens {info : TypeInfo} {condition : Option Name}
    {conditions : Option Conjunction} {deferral : Deferral}
    (flattens : info.flattens condition conditions deferral = true) :
    ¬ deferral.isDeferred = true := by
  simp only [TypeInfo.flattens, Bool.and_eq_true, Bool.not_eq_true'] at flattens
  simp [flattens.2]

/-- A walk adds the deferred fragments that it comes to itself, and no others.  The induction is on
the walk; what a spread leads to is not part of it. -/
theorem Walked.hasDeferred_iff {info : TypeInfo} {direct direct' : DirectSelections}
    {draft draft' : Draft} {ss : List Selection}
    (h : Walked view built info direct draft ss direct' draft') :
    direct'.HasDeferred ↔ direct.HasDeferred ∨ Visits view Selection.Deferred ss := by
  induction h with
  | nil => exact (or_iff_left not_visits_nil).symm
  | skipped skips _ ih => rw [ih, visits_cons, or_iff_right (not_visits_skipped skips)]
  | @leaf info direct direct₁ direct' draft draft' f ss inclusion included isLeaf added _ ih =>
      have nothing : ¬ Visits view Selection.Deferred [.field f] := by
        rw [visits_field (Selection.not_skipped included), isLeaf]
        simp [Selection.not_deferred_field]
      have same : direct₁.HasDeferred ↔ direct.HasDeferred := by
        rw [DirectSelections.hasDeferred_addField added]
        exact or_iff_left fun ⟨_, never, _⟩ => nomatch never
      rw [ih, same, visits_cons, or_iff_right nothing]
  | @entity info direct below direct₁ direct' draft draft₁ draft' entities entity f ss inclusion
      included isComposite selected _ added _ ihInner ih =>
      -- The set of the field has what the walk of its selections comes to, from nothing.
      have inner : (f.build draft₁.nextId inclusion ⟨f.inside view entity, below⟩).HasDeferred
          ↔ Visits view Selection.Deferred f.selections := by
        rw [← or_iff_right (b := Visits view Selection.Deferred f.selections)
          DirectSelections.not_hasDeferred_empty, ← ihInner]
        simp [FieldSelection.build, Field.HasDeferred]
      rw [ih, DirectSelections.hasDeferred_addField added, inner, visits_cons,
        visits_field (Selection.not_skipped included), isComposite,
        or_iff_right Selection.not_deferred_field, ← or_assoc, and_iff_right rfl]
  | flat read scope deferred flattens _ _ ihInside ih =>
      have included := Inclusion.ofDirectives_of_verdict read
      rw [scope] at included
      -- The fragment itself is gone, and what it deferred would be too; but it deferred nothing.
      rw [ih, ihInside, visits_cons, visits_inline (Selection.not_skipped included),
        Selection.deferred_inline deferred, or_iff_right (TypeInfo.immediate_of_flattens flattens),
        or_assoc]
  | inline read scope deferred opens _ added _ ihInside ih =>
      have included := Inclusion.ofDirectives_of_verdict read
      rw [scope] at included
      rw [ih, DirectSelections.hasDeferred_addInline added, InlineSpread.HasDeferred, ihInside,
        or_iff_right DirectSelections.not_hasDeferred_empty, visits_cons,
        visits_inline (Selection.not_skipped included), Selection.deferred_inline deferred, or_assoc,
        or_assoc]
  | spread included deferred found _ added _ ih =>
      rw [ih, DirectSelections.hasDeferred_walkAddSpread added, visits_cons,
        visits_spread (Selection.not_skipped included), Selection.deferred_spread deferred, ← or_assoc]

theorem WalkedFrom.hasDeferred_iff {source : SourceDefinition} {rootName : Name}
    {b : BuiltSelections} (h : WalkedFrom view built source rootName b) :
    b.rootField.selectionSet.direct.HasDeferred
      ↔ Visits view Selection.Deferred source.definition.selections := by
  obtain ⟨direct, draft, walked, rfl⟩ := h
  exact walked.hasDeferred_iff.trans (or_iff_right DirectSelections.not_hasDeferred_empty)

/-! ## Fragments that are listed -/

/-- A definition involves a fragment that its spreads lead to. -/
theorem ExecutableDefinition.Involves.of_leadsTo {d : ExecutableDefinition} {name : Name}
    {f : Sourced FragmentDefinition} (leads : LeadsTo view document d.selections name)
    (defined : document.fragment? name = some f) :
    d.Involves view document (.fragment f.definition) := by
  obtain ⟨first, spreads, path⟩ := leads
  rcases path.cases_head with rfl | ⟨second, ⟨g, definedG, onwards⟩, rest⟩
  · exact .spread .self spreads defined
  · exact (Involves.spread .self spreads definedG).follow definedG
      (.head ⟨g, definedG, onwards⟩ rest) defined

/-- What a definition notes is what it has itself, or what a fragment that it lists has noted. -/
theorem WalkedFrom.containsDeferred_iff (library : Library view document built)
    {source : SourceDefinition} {rootName : Name} {b : BuiltSelections}
    (h : WalkedFrom view built source rootName b) :
    b.containsDeferred = true ↔ b.rootField.selectionSet.direct.HasDeferred
      ∨ ∃ f ∈ b.referenced, f.built.containsDeferred = true := by
  have lists : b.Lists view document source.definition.selections := h.lists library library.lists
  have refers := (h.faithful library.inlined library.closed).2
  have held : ∀ f ∈ b.referenced, f ∈ built := fun f listed =>
    (NamedFragment.mem_of_find? (refers f listed)).1
  rw [h.defers_iff library library.defers_iff, h.hasDeferred_iff]
  -- A definition involves itself, and what the fragments that it lists involve.
  constructor
  · rintro ⟨x, involved, visits⟩
    rcases involved.cases_head with rfl | ⟨name, f, spreads, defined, involved⟩
    · exact Or.inl visits
    · obtain ⟨g, listed, rfl⟩ :=
        List.mem_map.mp ((lists.mem_iff name).mpr ⟨name, spreads, .refl⟩)
      obtain ⟨f', defined', same⟩ := library.defined g (held g listed)
      cases defined.symm.trans defined'
      rw [same] at involved
      exact Or.inr ⟨g, listed,
        (library.defers_iff g (held g listed)).mpr ⟨x, involved, visits⟩⟩
  · rintro (visits | ⟨g, listed, noted⟩)
    · exact ⟨_, .self, visits⟩
    · obtain ⟨x, involved, visits⟩ := (library.defers_iff g (held g listed)).mp noted
      obtain ⟨f, defined, same⟩ := library.defined g (held g listed)
      have leads := (lists.mem_iff g.name).mp (List.mem_map_of_mem listed)
      exact ⟨x, (ExecutableDefinition.Involves.of_leadsTo leads defined).trans (same ▸ involved), visits⟩

/-! ## Sessions -/

/-- A definition notes that it contains a deferred fragment exactly if an inline fragment or a spread
is deferred in its selections as they were put together, at any depth, or a fragment that it lists
has noted so; and exactly if the walk of it, or of a fragment that it involves, comes to an inline
fragment or a spread whose directives defer it. -/
theorem deferred_fragments_are_noted (document : Document) (s : Session)
    (reachable : s.Reachable document) (d : ExecutableDefinition) (b : BuiltSelections)
    (builds : s.Builds d b) :
    (b.containsDeferred = true
      ↔ (∃ set, b.rootField.selectionSet.Within set
          ∧ ((∃ inline ∈ set.direct.inlineFragments, inline.deferral.isDeferred = true)
            ∨ ∃ spread ∈ set.direct.namedFragments, spread.deferral.isDeferred = true))
        ∨ ∃ f ∈ b.referenced, f.built.containsDeferred = true)
    ∧ (b.containsDeferred = true
      ↔ ∃ x, d.Involves s.view document x ∧ ∃ selection, Visited s.view x.selections selection
        ∧ selection.isFragment = true ∧ ∃ deferral,
          Deferral.ofDirectives selection.directives = .ok deferral ∧ deferral.isDeferred = true) := by
  obtain ⟨built, id, rootName, library, walked⟩ := builds.walked reachable
  constructor
  · rw [walked.containsDeferred_iff library, SelectionSet.hasDeferred_iff]
  · rw [builds.deferred_iff reachable, ExecutableDefinition.Defers]
    simp only [Visits, Selection.deferred_iff]

/-- `query { hero { ...Later } }`, where `Later` defers the name of the hero: the query notes what the
fragment that it lists has noted, and that is because of the inline fragment there. -/
theorem a_query_notes_what_its_fragment_defers :
    let later : FragmentDefinition := ⟨"Later", "Hero", [],
      [.inlineFragment none [⟨"defer", []⟩] [.field Heroes.nameField]]⟩
    let o := Heroes.query [.field (Heroes.heroField "hero" [] [.fragmentSpread "Later" []])]
    let document : Document := ⟨[o], [⟨later, none⟩]⟩
    ∃ (s : Session) (b : BuiltSelections), s.Reachable document
      ∧ s.Builds (.operation o.definition) b ∧ b.containsDeferred = true
      ∧ ∃ x, ExecutableDefinition.Involves s.view document (.operation o.definition) x
        ∧ ∃ selection, Visited s.view x.selections selection ∧ selection.isFragment = true
          ∧ ∃ deferral, Deferral.ofDirectives selection.directives = .ok deferral
            ∧ deferral.isDeferred = true := by
  intro later o document
  obtain ⟨s, b, reachable, -, builds, passes⟩ :=
    Session.exists_builds document Heroes.schema o
      (fun b => b.referenced.any fun f => f.built.containsDeferred) (by decide +kernel)
  obtain ⟨own, visited⟩ := deferred_fragments_are_noted document s reachable _ b builds
  have noted : b.containsDeferred = true := own.mpr (Or.inr (by simpa using passes))
  exact ⟨s, b, reachable, builds, noted, visited.mp noted⟩

end SelectionGraph
