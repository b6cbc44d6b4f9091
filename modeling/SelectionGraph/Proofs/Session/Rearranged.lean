import SelectionGraph.Proofs.Document.Rearranged
import SelectionGraph.Proofs.Session.Causes
import SelectionGraph.Proofs.Session.Deferred

/-!
# Rearranged — what does not depend on the order of selections

* `landsAll_counterparts`  — where fields land;
* `Involves.rearranged`    — which definitions are involved;
* `Faulty.rearranged`      — whether an operation is faulty;
* `Defers.rearranged`      — whether a definition contains a deferred fragment.
-/

namespace SelectionGraph

variable {view view' : SchemaView} {document document' : Document}

/-! ## Faults -/

theorem landsAll_of_mem {type : Name} {chain : List SetKey} {g : FieldSelection} {ss : List Selection}
    {s : Selection} (mem : s ∈ ss) (lands : s.Lands view type chain g) :
    LandsAll view type chain g ss := by
  induction ss with
  | nil => cases mem
  | cons t ss ih =>
      rcases List.mem_cons.mp mem with rfl | later
      · exact Or.inl lands
      · exact Or.inr (ih later)

mutual

/-- A field that lands in a selection lands, up to its own selections, in the selection rearranged. -/
theorem Selection.Rearranged.lands
    (composite : ∀ name, view.isComposite name = view'.isComposite name) {g : FieldSelection} :
    ∀ (s : Selection) {t : Selection} {type : Name} {chain : List SetKey}, s.Rearranged t →
      s.Lands view type chain g →
      ∃ g', t.Lands view' type chain g' ∧ (Selection.field g).Rearranged (.field g')
  | .field ⟨label, definition, arguments, directives, selections⟩, _, type, chain, same, lands => by
      obtain ⟨selections', rfl, inner⟩ := same.exists_field
      obtain ⟨included, ⟨rfl, rfl⟩ | ⟨isComposite, rest, rfl, below⟩⟩ := lands_field.mp lands
      · exact ⟨_, lands_field.mpr ⟨included, Or.inl ⟨rfl, rfl⟩⟩, same⟩
      · obtain ⟨g', lands', sameG⟩ := landsAll_counterparts composite selections
          inner.of_mem below
        exact ⟨g', lands_field.mpr ⟨included, Or.inr ⟨(composite _).symm.trans isComposite, rest, rfl,
          lands'⟩⟩, sameG⟩
  | .inlineFragment condition directives selections, _, type, chain, same, lands => by
      obtain ⟨selections', rfl, inner⟩ := same.exists_inline
      rw [Selection.Lands] at lands
      obtain ⟨verdict, conditions, deferral, read, scope, deferred, within⟩ := lands
      split at within
      · rename_i flattens
        obtain ⟨g', lands', sameG⟩ := landsAll_counterparts composite selections
          inner.of_mem within
        refine ⟨g', ?_, sameG⟩
        rw [Selection.Lands]
        refine ⟨verdict, conditions, deferral, read, scope, deferred, ?_⟩
        rw [if_pos flattens]
        exact lands'
      · rename_i opens
        obtain ⟨key, rest, rfl, equal, within⟩ := within
        obtain ⟨g', lands', sameG⟩ := landsAll_counterparts composite selections
          inner.of_mem within
        refine ⟨g', ?_, sameG⟩
        rw [Selection.Lands]
        refine ⟨verdict, conditions, deferral, read, scope, deferred, ?_⟩
        rw [if_neg opens]
        exact ⟨key, rest, rfl, equal, lands'⟩
  | .fragmentSpread _ _, _, _, _, _, lands => by
      rw [Selection.Lands] at lands
      exact lands.elim

theorem landsAll_counterparts
    (composite : ∀ name, view.isComposite name = view'.isComposite name) {g : FieldSelection} :
    ∀ (ss : List Selection) {ts : List Selection} {type : Name} {chain : List SetKey},
      (∀ s ∈ ss, ∃ t ∈ ts, s.Rearranged t) → LandsAll view type chain g ss →
      ∃ g', LandsAll view' type chain g' ts ∧ (Selection.field g).Rearranged (.field g')
  | [], _, _, _, _, lands => lands.elim
  | s :: ss, _, _, _, counterparts, lands => by
      obtain ⟨⟨t, mem, same⟩, others⟩ := List.forall_mem_cons.mp counterparts
      rcases lands with here | later
      · obtain ⟨g', lands', sameG⟩ := Selection.Rearranged.lands composite s same here
        exact ⟨g', landsAll_of_mem mem lands', sameG⟩
      · exact landsAll_counterparts composite ss others later

end

section Faulty

variable (composite : ∀ name, view.isComposite name = view'.isComposite name)

include composite

theorem SchemaView.shape_rearranged {f g : FieldSelection}
    (same : (Selection.field f).Rearranged (.field g)) :
    g.responseKey = f.responseKey ∧ view'.shape g = view.shape f := by
  obtain ⟨selections, eq, -⟩ := same.exists_field
  cases eq
  exact ⟨rfl, by rw [shape, shape, composite]; rfl⟩

theorem ExecutableDefinition.Clashes.rearranged {d d' : ExecutableDefinition} (h : d.Clashes view)
    (r : d.Rearranged d') : d'.Clashes view' := by
  obtain ⟨chain, f, g, landsF, landsG, key, differ⟩ := h
  -- Which of the two is merged first does not matter to the clash: they differ in shape.
  obtain ⟨f', landsF', sameF⟩ := landsAll_counterparts composite _ r.selections.of_mem landsF
  obtain ⟨g', landsG', sameG⟩ := landsAll_counterparts composite _ r.selections.of_mem landsG
  obtain ⟨keyF, shapeF⟩ := SchemaView.shape_rearranged composite sameF
  obtain ⟨keyG, shapeG⟩ := SchemaView.shape_rearranged composite sameG
  rw [← r.rootType] at landsF' landsG'
  exact ⟨chain, f', g', landsF', landsG', keyF.trans (key.trans keyG.symm), by rwa [shapeF, shapeG]⟩

variable (documents : document.Rearranged document') {d d' x : ExecutableDefinition}

include documents

theorem ExecutableDefinition.Involves.rearranged (h : d.Involves view document x)
    (r : d.Rearranged d') : ∃ x', d'.Involves view' document' x' ∧ x.Rearranged x' := by
  induction h with
  | self => exact ⟨d', .self, r⟩
  | spread _ spreads defined ih =>
      obtain ⟨x', involved, same⟩ := ih
      obtain ⟨f', defined', sameF⟩ := documents.fragment? defined
      exact ⟨_, .spread involved (spreads.rearranged composite same.selections) defined',
        .fragment sameF⟩

/-- A fragment that an operation involves is one that is spread, so that it is the document's. -/
theorem ExecutableDefinition.Involves.rearranged_fragment {o o' : OperationDefinition} {name : Name}
    {f : Sourced FragmentDefinition} (defined : document.fragment? name = some f)
    (h : (operation o).Involves view document (.fragment f.definition)) (r : o.Rearranged o') :
    ∃ f', document'.fragment? name = some f'
      ∧ (operation o').Involves view' document' (.fragment f'.definition) := by
  generalize same : ExecutableDefinition.fragment f.definition = y at h
  cases h with
  | self => cases same
  | @spread x first g involved spreads definedG =>
      have named : first = name := by
        injection same with same
        rw [← Document.name_of_fragment? definedG, ← same, Document.name_of_fragment? defined]
      subst named
      obtain ⟨x', involved', sameX⟩ := involved.rearranged composite documents (.operation r)
      obtain ⟨f', defined', -⟩ := documents.fragment? definedG
      exact ⟨f', defined',
        .spread involved' (spreads.rearranged composite sameX.selections) defined'⟩

/-- A fault of an operation is one when selections are rearranged. -/
theorem ExecutableDefinition.Faulty.rearranged {o o' : OperationDefinition}
    (h : (operation o).Faulty view document) (r : o.Rearranged o') :
    (operation o').Faulty view' document' := by
  cases h with
  | unread involved visited fails =>
      obtain ⟨x', involved', same⟩ := involved.rearranged composite documents (.operation r)
      obtain ⟨t, visited', sameT⟩ := visited.rearranged composite same.selections
      exact .unread involved' visited' (sameT.directives ▸ fails)
  | undeferred involved visited fragment fails =>
      obtain ⟨x', involved', same⟩ := involved.rearranged composite documents (.operation r)
      obtain ⟨t, visited', sameT⟩ := visited.rearranged composite same.selections
      exact .undeferred involved' visited' (sameT.isFragment ▸ fragment) (sameT.directives ▸ fails)
  | undefined involved spreads unknown =>
      obtain ⟨x', involved', same⟩ := involved.rearranged composite documents (.operation r)
      exact .undefined involved' (spreads.rearranged composite same.selections)
        (documents.fragment?_eq_none unknown)
  | circle involved =>
      -- Spreading is kept step by step, and with it every circle.
      obtain ⟨name, f, defined, involved, circle⟩ := involved
      obtain ⟨f', defined', involved'⟩ :=
        involved.rearranged_fragment composite documents defined r
      exact .circle ⟨name, f', defined', involved', Relation.TransGen.mono
        (fun _ _ => Document.Spreads.rearranged composite documents) _ _ circle⟩
  | clash involved clashes =>
      obtain ⟨x', involved', same⟩ := involved.rearranged composite documents (.operation r)
      exact .clash involved' (clashes.rearranged composite same)

theorem ExecutableDefinition.Defers.rearranged (h : d.Defers view document) (r : d.Rearranged d') :
    d'.Defers view' document' := by
  obtain ⟨x, involved, s, visited, deferred⟩ := h
  obtain ⟨x', involved', same⟩ := involved.rearranged composite documents r
  obtain ⟨t, visited', sameT⟩ := visited.rearranged composite same.selections
  refine ⟨x', involved', t, visited', ?_⟩
  rw [Selection.Deferred, sameT.isFragment, sameT.directives]
  exact deferred

end Faulty
end SelectionGraph
