import SelectionGraph.Proofs.Entity.Merged
import SelectionGraph.Proofs.Entity.SameTrees

/-!
# Unchanged — insertions that change nothing

Adding a selection that is there already changes nothing, neither entries nor their order.  Whether it
is there is settled by absorption: an inclusion absorbs another when it covers whatever that one
covers, so that merging the two adds no member.

* `Inclusion.Absorbs`     — merging an inclusion into another leaves that as it is;
* `SelectionTree.Absorbs` — the entry of a key absorbs an inclusion;
* `insertField_eq_self`, `insertFragment_eq_self`, `mergeTree_eq_self` — what is absorbed changes
  nothing;
* `absorbs_insertField`, `absorbs_insertFragment`, `absorbs_mergeTree` — what was added is absorbed;
* `insertions_report_change` — whether a tree changes is reported truthfully, and adding the same a
  second time changes nothing.
-/

namespace SelectionGraph

/-! ## Inclusions -/

/-- A disjunction that has all members of another stays as it is, in its order too. -/
theorem Disjunction.union_eq_self {d e : Disjunction} (held : ∀ c ∈ e.members, d.contains c = true) :
    d.union e = d := by
  unfold union
  generalize e.members = members at held
  induction members with
  | nil => rfl
  | cons c rest ih =>
      obtain ⟨here, later⟩ := List.forall_mem_cons.mp held
      have same : d.insert c = d := dif_pos here
      rw [List.foldl_cons, same, ih later]

namespace Inclusion

variable {i j k : Inclusion}

/-- An inclusion covers whatever another covers, and is unconditional if that one is. -/
structure Absorbs (i j : Inclusion) : Prop where
  always : j = .always → i = .always
  covers : ∀ c, j.Covers c → i.Covers c

/-- An inclusion absorbs another exactly if merging the two gives an equal one. -/
theorem absorbs_iff_beq : i.Absorbs j ↔ (i.merge j == i) = true := by
  have always : (i.merge j = .always ↔ i = .always) ↔ (j = .always → i = .always) :=
    (iff_congr (additive_always i j) Iff.rfl).trans or_iff_left_iff_imp
  have covers : ∀ c, ((i.merge j).Covers c ↔ i.Covers c) ↔ (j.Covers c → i.Covers c) := fun c =>
    (iff_congr (additive_covers c i j) Iff.rfl).trans or_iff_left_iff_imp
  rw [beq_iff, always, forall_congr' covers]
  exact ⟨fun h => ⟨h.always, h.covers⟩, fun h => ⟨h.1, h.2⟩⟩

/-- What is absorbed leaves the inclusion as it is, in the order of its members too. -/
theorem Absorbs.merge_eq (h : i.Absorbs j) : i.merge j = i := by
  cases i with
  | always => rfl
  | when d =>
      cases j with
      | always => cases h.always rfl
      | when e =>
          refine congrArg when (Disjunction.union_eq_self fun c mem => ?_)
          exact h.covers c (Disjunction.contains_iff.mpr ⟨c, mem, BEq.rfl⟩)

end Inclusion

/-- Whether a selection changes what is held is whether this does not absorb it. -/
theorem ScopeSelections.changes_eq_false_iff {held : Option Inclusion} {added : Inclusion} :
    changes held added = false ↔ ∃ i, held = some i ∧ i.Absorbs added := by
  cases held with
  | none => simp [changes]
  | some i => simp [changes, bne, Inclusion.absorbs_iff_beq]

/-! ## Scopes -/

namespace ScopeSelections

variable {s : ScopeSelections} {i : Inclusion}

theorem insertField_eq_self {f : MergedField}
    (held : s.inclusion? (.field f.responseKey) = some i) (absorbs : i.Absorbs f.inclusion) :
    s.insertField f = s := by
  obtain ⟨g, found, rfl⟩ := Option.map_eq_some_iff.mp held
  refine congrArg (fun fields => { s with fields }) (Ordered.upsert_eq_self found ?_)
  rw [absorbs.merge_eq]

theorem insertFragment_eq_self {name : Name} {added : Inclusion}
    (held : s.inclusion? (.fragment name) = some i) (absorbs : i.Absorbs added) :
    s.insertFragment name added = s := by
  rw [inclusion?, fragment?_eq, Option.map_eq_some_iff] at held
  obtain ⟨g, found, rfl⟩ := held
  refine congrArg (fun fragments => { s with fragments }) (Ordered.upsert_eq_self found ?_)
  rw [absorbs.merge_eq]

/-- A scope is equal to itself. -/
theorem Keyed.beq_self (h : s.Keyed) : (s == s) = true := by
  refine beq_of_reads h h (fun _ _ _ => Iff.rfl) fun f memF g memG key => ?_
  have first := h.field?_eq_some_iff.mpr ⟨memF, key⟩
  have second := h.field?_eq_some_iff.mpr ⟨memG, rfl⟩
  cases first.symm.trans second
  exact ⟨rfl, rfl⟩

/-- What is read of a scope is read of any equal one. -/
theorem reads_of_beq {s' : ScopeSelections} {τ : Inclusion → Prop} (respects : Inclusion.Respects τ)
    (same : (s == s') = true) {slot : Slot} (read : s.Reads τ slot) : s'.Reads τ slot := by
  obtain ⟨fields, fragments⟩ := Bool.and_eq_true_iff.mp same
  cases slot with
  | field key =>
      obtain ⟨f, mem, rfl, held⟩ := read
      have paired := List.all_eq_true.mp (Bool.and_eq_true_iff.mp fields).2 f mem
      obtain ⟨g, found, related⟩ := (Option.any_eq_true _ _).mp paired
      have inclusion : (f.inclusion == g.inclusion) = true := by
        change (f.responseKey == g.responseKey && (f.name == g.name && (f.type == g.type
          && f.inclusion == g.inclusion))) = true at related
        simp only [Bool.and_eq_true] at related
        exact related.2.2.2
      exact ⟨g, List.mem_of_find?_eq_some found, by simpa using List.find?_some found,
        respects _ _ inclusion held⟩
  | fragment name =>
      obtain ⟨f, mem, rfl, held⟩ := read
      have paired := List.all_eq_true.mp (Bool.and_eq_true_iff.mp fragments).2 f mem
      obtain ⟨g, found, related⟩ := (Option.any_eq_true _ _).mp paired
      exact ⟨g, List.mem_of_find?_eq_some found, by simpa using List.find?_some found,
        respects _ _ (Bool.and_eq_true_iff.mp related).2 held⟩

end ScopeSelections

/-! ## Trees -/

namespace SelectionTree

variable {t u o : SelectionTree} {path site : ScopePath} {slot : Slot} {guard i : Inclusion}

/-- The entry of a key absorbs an inclusion. -/
def Absorbs (t : SelectionTree) (path : ScopePath) (slot : Slot) (i : Inclusion) : Prop :=
  ∃ held, t.inclusion? path slot = some held ∧ held.Absorbs i

/-- An entry absorbs an inclusion if it reads as covering what that one covers. -/
theorem Keyed.absorbs_iff (h : t.Keyed) :
    t.Absorbs path slot i ↔ t.Reads (fun _ => True) path slot
      ∧ (i = .always → t.Reads (· = .always) path slot)
      ∧ ∀ c, i.Covers c → t.Reads (Inclusion.Covers c) path slot := by
  simp only [h.reads_iff_inclusion?]
  constructor
  · rintro ⟨held, found, absorbs⟩
    exact ⟨⟨held, found, trivial⟩, fun same => ⟨held, found, absorbs.always same⟩,
      fun c covers => ⟨held, found, absorbs.covers c covers⟩⟩
  · rintro ⟨⟨held, found, -⟩, always, covers⟩
    -- The entry is the only one of its key, so that all readings are of its inclusion.
    refine ⟨held, found, fun same => ?_, fun c covered => ?_⟩
    · obtain ⟨held', found', read⟩ := always same
      cases found.symm.trans found'
      exact read
    · obtain ⟨held', found', read⟩ := covers c covered
      cases found.symm.trans found'
      exact read

theorem fieldChanges_eq_false_iff {f : MergedField} :
    t.fieldChanges path f = false ↔ t.Absorbs path (.field f.responseKey) f.inclusion := by
  have held : ((t.scope? path).bind (·.field? f.responseKey)).map MergedField.inclusion
      = t.inclusion? path (.field f.responseKey) := by
    unfold inclusion?
    cases t.scope? path <;> rfl
  rw [fieldChanges, held]
  exact ScopeSelections.changes_eq_false_iff

theorem fragmentChanges_eq_false_iff {name : Name} :
    t.fragmentChanges path name i = false ↔ t.Absorbs path (.fragment name) i :=
  ScopeSelections.changes_eq_false_iff

/-! ### What is absorbed -/

theorem modifyScope_eq_self {change : ScopeSelections → ScopeSelections} {s : ScopeSelections}
    (found : t.scope? path = some s) (same : change s = s) : t.modifyScope path change = t := by
  obtain ⟨⟨p, s⟩, first, rfl⟩ := Option.map_eq_some_iff.mp found
  refine congrArg (fun scopes => { t with scopes }) (Ordered.upsert_eq_self first ?_)
  rw [same]

theorem insertField_eq_self {f : MergedField}
    (absorbs : t.Absorbs path (.field f.responseKey) f.inclusion) : t.insertField path f = t := by
  obtain ⟨held, found, absorbed⟩ := absorbs
  obtain ⟨s, scope, entry⟩ := Option.bind_eq_some_iff.mp found
  exact modifyScope_eq_self scope (ScopeSelections.insertField_eq_self entry absorbed)

theorem insertFragment_eq_self {name : Name} (absorbs : t.Absorbs path (.fragment name) i) :
    t.insertFragment path name i = t := by
  obtain ⟨held, found, absorbed⟩ := absorbs
  obtain ⟨s, scope, entry⟩ := Option.bind_eq_some_iff.mp found
  exact modifyScope_eq_self scope (ScopeSelections.insertFragment_eq_self entry absorbed)

/-- A tree absorbs all entries of another, below the site and as they are under the guard. -/
def AbsorbsBelow (t o : SelectionTree) (site : ScopePath) (guard : Inclusion) : Prop :=
  ∀ x ∈ o.scopes, ∀ slot i j, x.2.Reads (· = i) slot → i.under guard = some j →
    t.Absorbs (site.concat x.1) slot j

/-- Steps that leave what they start from as it is, one after the other. -/
theorem foldl_eq_self {α : Type} {step : SelectionTree → α → SelectionTree} {l : List α}
    (same : ∀ a ∈ l, step t a = t) : l.foldl step t = t := by
  induction l with
  | nil => rfl
  | cons a l ih =>
      obtain ⟨here, later⟩ := List.forall_mem_cons.mp same
      rw [List.foldl_cons, here, ih later]

theorem mergeTree_eq_self (absorbs : t.AbsorbsBelow o site guard) :
    t.mergeTree o site guard = t := by
  refine foldl_eq_self fun x mem => ?_
  have fields : x.2.fields.foldl (mergeField (site.concat x.1) guard) t = t := by
    refine foldl_eq_self fun f memF => ?_
    unfold mergeField
    split
    · rfl
    · rename_i i restricted
      exact insertField_eq_self (f := { f with inclusion := i })
        (absorbs x mem (.field f.responseKey) _ i ⟨f, memF, rfl, rfl⟩ restricted)
  have fragments : x.2.fragments.foldl (mergeFragment (site.concat x.1) guard) t = t := by
    refine foldl_eq_self fun g memG => ?_
    unfold mergeFragment
    split
    · rfl
    · rename_i i restricted
      exact insertFragment_eq_self (absorbs x mem (.fragment g.1) _ i ⟨g, memG, rfl, rfl⟩ restricted)
  calc t.mergeScope (site.concat x.1) guard x.2
      = x.2.fragments.foldl (mergeFragment (site.concat x.1) guard)
          (x.2.fields.foldl (mergeField (site.concat x.1) guard) t) := mergeScope_eq _ _ _ _
    _ = t := by rw [fields, fragments]

/-! ### What was added -/

theorem Keyed.absorbs_insertField (h : t.Keyed) (path : ScopePath) (f : MergedField) :
    (t.insertField path f).Absorbs path (.field f.responseKey) f.inclusion := by
  have read : ∀ {τ : Inclusion → Prop}, Inclusion.Additive τ → τ f.inclusion →
      (t.insertField path f).Reads τ path (.field f.responseKey) := fun additive held =>
    (t.reads_insertField additive path f path _).mpr (Or.inr ⟨BEq.rfl, rfl, held⟩)
  exact (h.insertField path f).absorbs_iff.mpr ⟨read Inclusion.additive_true trivial,
    read Inclusion.additive_always, fun c => read (Inclusion.additive_covers c)⟩

theorem Keyed.absorbs_insertFragment (h : t.Keyed) (path : ScopePath) (name : Name)
    (i : Inclusion) : (t.insertFragment path name i).Absorbs path (.fragment name) i := by
  have read : ∀ {τ : Inclusion → Prop}, Inclusion.Additive τ → τ i →
      (t.insertFragment path name i).Reads τ path (.fragment name) := fun additive held =>
    (t.reads_insertFragment additive path name i path _).mpr (Or.inr ⟨BEq.rfl, rfl, held⟩)
  exact (h.insertFragment path name i).absorbs_iff.mpr ⟨read Inclusion.additive_true trivial,
    read Inclusion.additive_always, fun c => read (Inclusion.additive_covers c)⟩

theorem Keyed.absorbs_mergeTree (h : t.Keyed) (o : SelectionTree) (site : ScopePath)
    (guard : Inclusion) : (t.mergeTree o site guard).AbsorbsBelow o site guard := by
  intro x mem slot i j entry restricted
  have read : ∀ {τ : Inclusion → Prop}, Inclusion.Additive τ → τ j →
      (t.mergeTree o site guard).Reads τ (site.concat x.1) slot := by
    intro τ additive held
    have below : x.2.Reads (Inclusion.Under guard τ) slot :=
      ScopeSelections.reads_iff_exists.mpr ⟨i, entry, j, restricted, held⟩
    exact (reads_mergeTree additive t o site guard _ slot).mpr
      (Or.inr ⟨x.1, BEq.rfl, x, mem, BEq.rfl, below⟩)
  exact (h.mergeTree o site guard).absorbs_iff.mpr ⟨read Inclusion.additive_true trivial,
    read Inclusion.additive_always, fun c => read (Inclusion.additive_covers c)⟩

/-! ### Equality -/

/-- A tree is equal to itself. -/
theorem Keyed.beq_self (h : t.Keyed) : (t == t) = true := by
  refine Bool.and_eq_true_iff.mpr ⟨beq_self_eq_true _, ?_⟩
  exact Ordered.same_of_covered h.scopes h.scopes
    (fun x mem => ⟨x, mem, BEq.rfl, (h.entries x mem).beq_self⟩) fun x mem => ⟨x, mem, BEq.rfl⟩

/-- What is read of a tree is read of any equal one. -/
theorem reads_of_beq {τ : Inclusion → Prop} (respects : Inclusion.Respects τ)
    (same : (t == u) = true) (read : t.Reads τ path slot) : u.Reads τ path slot := by
  obtain ⟨x, mem, at_, read⟩ := read
  have scopes := (Bool.and_eq_true_iff.mp (Bool.and_eq_true_iff.mp same).2).2
  obtain ⟨y, found, related⟩ := (Option.any_eq_true _ _).mp (List.all_eq_true.mp scopes x mem)
  exact ⟨y, List.mem_of_find?_eq_some found, BEq.trans (List.find?_some found :) at_,
    ScopeSelections.reads_of_beq respects related read⟩

theorem Absorbs.of_beq (keyed : t.Keyed) (keyed' : u.Keyed) (same : (t == u) = true)
    (h : t.Absorbs path slot i) : u.Absorbs path slot i := by
  obtain ⟨there, always, covers⟩ := keyed.absorbs_iff.mp h
  exact keyed'.absorbs_iff.mpr ⟨reads_of_beq Inclusion.respects_true same there,
    fun unconditional => reads_of_beq Inclusion.respects_always same (always unconditional),
    fun c covered => reads_of_beq (Inclusion.respects_covers c) same (covers c covered)⟩

/-- A tree is changed exactly by what it does not absorb. -/
theorem Keyed.changes_iff (keyed : t.Keyed) (keyed' : u.Keyed) {changes : Bool}
    (reported : changes = false ↔ t.Absorbs path slot i)
    (unchanged : t.Absorbs path slot i → u = t) (added : u.Absorbs path slot i) :
    changes = true ↔ (u == t) = false := by
  have same : t.Absorbs path slot i ↔ (u == t) = true := by
    constructor
    · intro absorbs
      rw [unchanged absorbs]
      exact keyed.beq_self
    · exact fun same => added.of_beq keyed' keyed same
  rw [← Bool.not_eq_false, reported, same, Bool.not_eq_true]

end SelectionTree

/-- Insertions report truthfully whether the tree has changed: the result is another tree, up to the
order of insertion, exactly if a change is reported, and the same tree, in its order too, if none is.
The same insertion reports no change when it is made again, and merging the same tree again below the
same scope and under the same guard changes nothing. -/
theorem insertions_report_change {t : SelectionTree} (keyed : t.Keyed) (path : ScopePath) :
    (∀ f, (t.fieldChanges path f = true ↔ (t.insertField path f == t) = false)
        ∧ (t.fieldChanges path f = false → t.insertField path f = t)
        ∧ (t.insertField path f).fieldChanges path f = false)
      ∧ (∀ name i, (t.fragmentChanges path name i = true
            ↔ (t.insertFragment path name i == t) = false)
        ∧ (t.fragmentChanges path name i = false → t.insertFragment path name i = t)
        ∧ (t.insertFragment path name i).fragmentChanges path name i = false)
      ∧ ∀ o guard, (t.mergeTree o path guard).mergeTree o path guard = t.mergeTree o path guard := by
  refine ⟨fun f => ?_, fun name i => ?_, fun o guard => ?_⟩
  · have added := keyed.absorbs_insertField path f
    have reported : t.fieldChanges path f = false ↔ t.Absorbs path (.field f.responseKey) f.inclusion :=
      SelectionTree.fieldChanges_eq_false_iff
    have unchanged : t.Absorbs path (.field f.responseKey) f.inclusion → t.insertField path f = t :=
      SelectionTree.insertField_eq_self
    exact ⟨keyed.changes_iff (keyed.insertField path f) reported unchanged added,
      fun none => unchanged (reported.mp none), SelectionTree.fieldChanges_eq_false_iff.mpr added⟩
  · have added := keyed.absorbs_insertFragment path name i
    have reported : t.fragmentChanges path name i = false ↔ t.Absorbs path (.fragment name) i :=
      SelectionTree.fragmentChanges_eq_false_iff
    have unchanged : t.Absorbs path (.fragment name) i → t.insertFragment path name i = t :=
      SelectionTree.insertFragment_eq_self
    exact ⟨keyed.changes_iff (keyed.insertFragment path name i) reported unchanged added,
      fun none => unchanged (reported.mp none), SelectionTree.fragmentChanges_eq_false_iff.mpr added⟩
  · exact SelectionTree.mergeTree_eq_self (keyed.absorbs_mergeTree o path guard)

/-- A name that is selected if `$a`, and then if `$b`: the second selection changes the tree, and
making it again does not. -/
theorem name_is_selected_once :
    let given : Name → Inclusion := fun flag =>
      .when (.single ⟨[⟨flag, false⟩], List.cons_ne_nil _ _, List.nodup_singleton flag⟩)
    let name : Name → MergedField := fun flag => ⟨"name", "name", .named "String", given flag⟩
    let t := (SelectionTree.empty (.root "Character")).insertField .root (name "a")
    t.Keyed ∧ (t.insertField .root (name "b") == t) = false
      ∧ (t.insertField .root (name "b")).fieldChanges .root (name "b") = false := by
  intro given name t
  have keyed : t.Keyed := (SelectionTree.keyed_empty _).insertField _ _
  obtain ⟨fields, -⟩ := insertions_report_change keyed .root
  obtain ⟨changed, -, again⟩ := fields (name "b")
  exact ⟨keyed, changed.mp (by decide), again⟩

end SelectionGraph
