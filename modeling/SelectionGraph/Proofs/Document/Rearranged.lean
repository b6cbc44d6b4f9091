import Mathlib.Data.List.Forall2
import SelectionGraph.Proofs.Entity.Meets
import SelectionGraph.Proofs.Session.References

/-!
# Rearranged — documents whose selections stand in another order

* `Rearranged`          — selections in another order, in their own set or in any set below;
* `Rearranged.of_mem`   — each of them has its counterpart, `Selection.Rearranged`;
* `Document.Rearranged` — a document whose definitions have their selections rearranged;
* `Visited.rearranged`, `LeadsTo.rearranged`, `Meets.rearranged` — what is come to or met among some
  selections is so, up to its own selections, among rearranged ones.

Being rearranged is symmetric, so that statements of the last kind are proved in one direction only.
They are about two views of one schema, as a view depends on the order of its document.
-/

namespace SelectionGraph

/-! ## Selections -/

/-- The same selections in another order, and the same of the selections in each of them. -/
inductive Rearranged : List Selection → List Selection → Prop
  | nil : Rearranged [] []
  | field (f : FieldSelection) {selections ss ts : List Selection}
      (inner : Rearranged f.selections selections) (rest : Rearranged ss ts) :
      Rearranged (.field f :: ss) (.field { f with selections } :: ts)
  | inline (condition : Option Name) (directives : List Directive)
      {selections selections' ss ts : List Selection} (inner : Rearranged selections selections')
      (rest : Rearranged ss ts) :
      Rearranged (.inlineFragment condition directives selections :: ss)
        (.inlineFragment condition directives selections' :: ts)
  | spread (name : Name) (directives : List Directive) {ss ts : List Selection}
      (rest : Rearranged ss ts) :
      Rearranged (.fragmentSpread name directives :: ss) (.fragmentSpread name directives :: ts)
  | swap (s t : Selection) (ss : List Selection) : Rearranged (s :: t :: ss) (t :: s :: ss)
  | trans {ss ts us : List Selection} (first : Rearranged ss ts) (second : Rearranged ts us) :
      Rearranged ss us

/-- A selection that has the same selections in another order. -/
inductive Selection.Rearranged : Selection → Selection → Prop
  | field (f : FieldSelection) {selections : List Selection}
      (inner : SelectionGraph.Rearranged f.selections selections) :
      Rearranged (.field f) (.field { f with selections })
  | inline (condition : Option Name) (directives : List Directive)
      {selections selections' : List Selection}
      (inner : SelectionGraph.Rearranged selections selections') :
      Rearranged (.inlineFragment condition directives selections)
        (.inlineFragment condition directives selections')
  | spread (name : Name) (directives : List Directive) :
      Rearranged (.fragmentSpread name directives) (.fragmentSpread name directives)

namespace Rearranged

mutual

theorem cons : ∀ (s : Selection) {ss ts : List Selection}, Rearranged ss ts →
    Rearranged (s :: ss) (s :: ts)
  | .field ⟨label, definition, arguments, directives, selections⟩, _, _, rest =>
      .field ⟨label, definition, arguments, directives, selections⟩ (refl selections) rest
  | .inlineFragment condition directives selections, _, _, rest =>
      .inline condition directives (refl selections) rest
  | .fragmentSpread name directives, _, _, rest => .spread name directives rest

theorem refl : ∀ ss : List Selection, Rearranged ss ss
  | [] => .nil
  | s :: ss => cons s (refl ss)

end

variable {ss ts : List Selection}

theorem symm (h : Rearranged ss ts) : Rearranged ts ss := by
  induction h with
  | nil => exact nil
  | field f _ _ ihInner ih =>
      cases f
      exact field ⟨_, _, _, _, _⟩ ihInner ih
  | inline condition directives _ _ ihInner ih => exact inline condition directives ihInner ih
  | spread name directives _ ih => exact spread name directives ih
  | swap s t ss => exact swap t s ss
  | trans _ _ ihFirst ihSecond => exact ihSecond.trans ihFirst

/-- Any order of the selections of one set will do. -/
theorem of_perm (h : ss.Perm ts) : Rearranged ss ts := by
  induction h with
  | nil => exact nil
  | cons s _ ih => exact cons s ih
  | swap s t ss => exact swap t s ss
  | trans _ _ ihFirst ihSecond => exact ihFirst.trans ihSecond

end Rearranged

namespace Selection.Rearranged

variable {s t u : Selection}

theorem refl (s : Selection) : s.Rearranged s := by
  cases s with
  | field f =>
      cases f
      exact field ⟨_, _, _, _, _⟩ (SelectionGraph.Rearranged.refl _)
  | inlineFragment condition directives selections =>
      exact inline condition directives (SelectionGraph.Rearranged.refl selections)
  | fragmentSpread name directives => exact spread name directives

theorem trans (h : s.Rearranged t) (h' : t.Rearranged u) : s.Rearranged u := by
  cases h with
  | field f inner => cases h' with
    | field _ inner' => exact field f (inner.trans inner')
  | inline condition directives inner => cases h' with
    | inline _ _ inner' => exact inline condition directives (inner.trans inner')
  | spread name directives => exact h'

@[simp] theorem directives (h : s.Rearranged t) : t.directives = s.directives := by
  cases h <;> rfl

theorem slot? (h : s.Rearranged t) : t.slot? = s.slot? := by
  cases h <;> rfl

theorem isFragment (h : s.Rearranged t) : t.isFragment = s.isFragment := by
  cases h <;> rfl

/-- A field is rearranged to a field with the same key, name and type. -/
theorem exists_field {f : FieldSelection} (h : (Selection.field f).Rearranged t) :
    ∃ selections, t = .field { f with selections }
      ∧ SelectionGraph.Rearranged f.selections selections := by
  cases h with
  | field _ inner => exact ⟨_, rfl, inner⟩

theorem exists_inline {condition : Option Name} {directives : List Directive}
    {selections : List Selection}
    (h : (Selection.inlineFragment condition directives selections).Rearranged t) :
    ∃ selections', t = .inlineFragment condition directives selections'
      ∧ SelectionGraph.Rearranged selections selections' := by
  cases h with
  | inline _ _ inner => exact ⟨_, rfl, inner⟩

theorem eq_spread {name : Name} {directives : List Directive}
    (h : (Selection.fragmentSpread name directives).Rearranged t) :
    t = .fragmentSpread name directives := by
  cases h
  rfl

end Selection.Rearranged

/-- Each of the selections has its counterpart. -/
theorem Rearranged.of_mem {ss ts : List Selection} (h : Rearranged ss ts) :
    ∀ s ∈ ss, ∃ t ∈ ts, s.Rearranged t := by
  induction h with
  | nil => simp
  | field f inner _ _ ih =>
      simp only [List.forall_mem_cons, List.exists_mem_cons_iff]
      exact ⟨Or.inl (.field f inner), fun s mem => Or.inr (ih s mem)⟩
  | inline condition directives inner _ _ ih =>
      simp only [List.forall_mem_cons, List.exists_mem_cons_iff]
      exact ⟨Or.inl (.inline condition directives inner), fun s mem => Or.inr (ih s mem)⟩
  | spread name directives _ ih =>
      simp only [List.forall_mem_cons, List.exists_mem_cons_iff]
      exact ⟨Or.inl (.spread name directives), fun s mem => Or.inr (ih s mem)⟩
  | swap s t ss =>
      -- Only the places change, so that each selection is its own counterpart.
      exact fun u mem => ⟨u, ((List.Perm.swap t s ss).mem_iff).mp mem, .refl u⟩
  | trans _ _ ihFirst ihSecond =>
      intro s mem
      obtain ⟨t, memT, first⟩ := ihFirst s mem
      obtain ⟨u, memU, second⟩ := ihSecond t memT
      exact ⟨u, memU, first.trans second⟩

/-! ## Definitions -/

/-- An operation with its selections rearranged. -/
def OperationDefinition.Rearranged (o o' : OperationDefinition) : Prop :=
  ∃ selections, SelectionGraph.Rearranged o.selections selections ∧ o' = { o with selections }

/-- A fragment with its selections rearranged. -/
def FragmentDefinition.Rearranged (f f' : FragmentDefinition) : Prop :=
  ∃ selections, SelectionGraph.Rearranged f.selections selections ∧ f' = { f with selections }

theorem OperationDefinition.Rearranged.symm {o o' : OperationDefinition} (h : o.Rearranged o') :
    o'.Rearranged o := by
  obtain ⟨selections, rearranged, rfl⟩ := h
  exact ⟨o.selections, rearranged.symm, rfl⟩

theorem FragmentDefinition.Rearranged.symm {f f' : FragmentDefinition} (h : f.Rearranged f') :
    f'.Rearranged f := by
  obtain ⟨selections, rearranged, rfl⟩ := h
  exact ⟨f.selections, rearranged.symm, rfl⟩

/-- A definition with its selections rearranged. -/
inductive ExecutableDefinition.Rearranged : ExecutableDefinition → ExecutableDefinition → Prop
  | operation {o o' : OperationDefinition} (h : o.Rearranged o') :
      Rearranged (.operation o) (.operation o')
  | fragment {f f' : FragmentDefinition} (h : f.Rearranged f') :
      Rearranged (.fragment f) (.fragment f')

namespace ExecutableDefinition.Rearranged

variable {d d' : ExecutableDefinition}

theorem symm (h : d.Rearranged d') : d'.Rearranged d := by
  cases h with
  | operation h => exact operation h.symm
  | fragment h => exact fragment h.symm

theorem rootType (h : d.Rearranged d') : d'.rootType = d.rootType := by
  cases h with
  | operation h => obtain ⟨_, _, rfl⟩ := h; rfl
  | fragment h => obtain ⟨_, _, rfl⟩ := h; rfl

theorem selections (h : d.Rearranged d') :
    SelectionGraph.Rearranged d.selections d'.selections := by
  cases h with
  | operation h => obtain ⟨_, rearranged, rfl⟩ := h; exact rearranged
  | fragment h => obtain ⟨_, rearranged, rfl⟩ := h; exact rearranged

end ExecutableDefinition.Rearranged

/-- A document whose definitions have their selections rearranged.  Their texts may be any. -/
structure Document.Rearranged (document document' : Document) : Prop where
  operations : List.Forall₂ (fun o o' => o.definition.Rearranged o'.definition)
    document.operations document'.operations
  fragments : List.Forall₂ (fun f f' => f.definition.Rearranged f'.definition)
    document.fragments document'.fragments

namespace Document.Rearranged

variable {document document' : Document}

theorem symm (h : document.Rearranged document') : document'.Rearranged document where
  operations := h.operations.flip.imp fun _ _ => OperationDefinition.Rearranged.symm
  fragments := h.fragments.flip.imp fun _ _ => FragmentDefinition.Rearranged.symm

/-- A fragment is found under its name in both. -/
theorem fragment? (h : document.Rearranged document') {name : Name} {f : Sourced FragmentDefinition}
    (defined : document.fragment? name = some f) :
    ∃ f', document'.fragment? name = some f' ∧ f.definition.Rearranged f'.definition := by
  have fragments := h.fragments
  unfold Document.fragment? at defined ⊢
  generalize document.fragments = l at fragments defined
  generalize document'.fragments = l' at fragments
  induction fragments with
  | nil => cases defined
  | @cons g g' l l' first _ ih =>
      have same : g'.definition.name = g.definition.name := by
        obtain ⟨_, _, eq⟩ := first
        rw [eq]
      rw [List.find?_cons] at defined ⊢
      rw [same]
      split at defined
      · cases defined
        exact ⟨g', rfl, first⟩
      · exact ih defined

theorem fragment?_eq_none (h : document.Rearranged document') {name : Name}
    (unknown : document.fragment? name = none) : document'.fragment? name = none := by
  cases defined : document'.fragment? name with
  | none => rfl
  | some f' =>
      obtain ⟨f, found, -⟩ := h.symm.fragment? defined
      cases unknown.symm.trans found

end Document.Rearranged

/-! ## What is visited and met -/

section Transfer

variable {view view' : SchemaView}
  (composite : ∀ name, view.isComposite name = view'.isComposite name)
  {document document' : Document} (documents : document.Rearranged document')
  {ss ts : List Selection} {s : Selection} {name other : Name}

theorem Selection.Rearranged.skipped {s t : Selection} (h : s.Rearranged t) :
    t.Skipped ↔ s.Skipped := by
  rw [Selection.Skipped, Selection.Skipped, h.directives]

include composite

theorem Visited.rearranged (h : Visited view ss s) :
    ∀ {ts : List Selection}, Rearranged ss ts → ∃ t, Visited view' ts t ∧ s.Rearranged t := by
  induction h with
  | here mem kept =>
      intro ts r
      obtain ⟨t, memT, same⟩ := r.of_mem _ mem
      exact ⟨t, .here memT (mt same.skipped.mp kept), same⟩
  | field mem kept isComposite _ ih =>
      intro ts r
      obtain ⟨t, memT, same⟩ := r.of_mem _ mem
      obtain ⟨selections, rfl, inner⟩ := same.exists_field
      obtain ⟨t, visited, sameT⟩ := ih inner
      exact ⟨t, .field memT (mt same.skipped.mp kept) ((composite _).symm.trans isComposite) visited,
        sameT⟩
  | inline mem kept _ ih =>
      intro ts r
      obtain ⟨t, memT, same⟩ := r.of_mem _ mem
      obtain ⟨selections, rfl, inner⟩ := same.exists_inline
      obtain ⟨t, visited, sameT⟩ := ih inner
      exact ⟨t, .inline memT (mt same.skipped.mp kept) visited, sameT⟩

theorem Spreads.rearranged (h : Spreads view ss name) (r : Rearranged ss ts) :
    Spreads view' ts name := by
  obtain ⟨directives, visited⟩ := h
  obtain ⟨t, visited', same⟩ := visited.rearranged composite r
  obtain rfl := same.eq_spread
  exact ⟨directives, visited'⟩

include documents

theorem Document.Spreads.rearranged (h : document.Spreads view name other) :
    document'.Spreads view' name other := by
  obtain ⟨f, defined, spreads⟩ := h
  obtain ⟨f', defined', selections, r, same⟩ := documents.fragment? defined
  refine ⟨f', defined', ?_⟩
  rw [same]
  exact spreads.rearranged composite r

theorem LeadsTo.rearranged (h : LeadsTo view document ss name) (r : Rearranged ss ts) :
    LeadsTo view' document' ts name := by
  obtain ⟨first, spreads, path⟩ := h
  exact ⟨first, spreads.rearranged composite r,
    Relation.ReflTransGen.mono (fun _ _ => Document.Spreads.rearranged composite documents) _ _
      path⟩

theorem Meets.rearranged {p q : Place} {c : Inclusion} (h : Meets view document p ss q s c) :
    ∀ {ts : List Selection}, Rearranged ss ts →
      ∃ t, Meets view' document' p ts q t c ∧ s.Rearranged t := by
  induction h with
  | here mem slot included =>
      intro ts r
      obtain ⟨t, memT, same⟩ := r.of_mem _ mem
      exact ⟨t, .here memT (same.slot? ▸ slot) (same.directives ▸ included), same⟩
  | field mem included isComposite _ ih =>
      intro ts r
      obtain ⟨t, memT, same⟩ := r.of_mem _ mem
      obtain ⟨selections, rfl, inner⟩ := same.exists_field
      obtain ⟨t, met, sameT⟩ := ih inner
      exact ⟨t, .field memT included ((composite _).symm.trans isComposite) met, sameT⟩
  | inline mem read scope _ ih =>
      intro ts r
      obtain ⟨t, memT, same⟩ := r.of_mem _ mem
      obtain ⟨selections, rfl, inner⟩ := same.exists_inline
      obtain ⟨t, met, sameT⟩ := ih inner
      exact ⟨t, .inline memT read scope met, sameT⟩
  | spread mem included defined _ ih =>
      intro ts r
      obtain ⟨t, memT, same⟩ := r.of_mem _ mem
      obtain rfl := same.eq_spread
      -- Here the walk goes on in a fragment, whose selections are rearranged as well.
      obtain ⟨f', defined', selections, inner, body⟩ := documents.fragment? defined
      obtain ⟨t, met, sameT⟩ := ih inner
      refine ⟨t, .spread memT included defined' ?_, sameT⟩
      rw [body]
      exact met

end Transfer
end SelectionGraph
