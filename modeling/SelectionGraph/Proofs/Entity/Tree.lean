import SelectionGraph.Entity.SelectionTree
import SelectionGraph.Proofs.Inclusion.Members

/-!
# Tree — what a selection tree selects

A tree is read by a property of inclusions: it reads so for a field, or for the spread of a fragment,
in a scope when it has an entry there whose inclusion has the property.  Under values of the variables
it holds the entries whose inclusions hold.

* `SelectionTree.Reads`  — the reading, for fields and fragments alike;
* `reads_insertField`, `reads_insertFragment`, `reads_mergeTree` — what the operations add to it;
* `SelectionTree.Holds`  — the reading under values, with `holds_insertField` and so on;
* `SelectionTree.Keyed`  — no two scopes and no two entries of a scope have the same key, so that the
  entry found by a key is the only one.

The reading takes the entries one by one, so that the operations are additive in it whether or not
keys repeat.
-/

namespace SelectionGraph

variable {σ : Assignment} {τ : Inclusion → Prop}

/-- What a scope holds: fields by response key, fragments by name. -/
inductive Slot
  | field (responseKey : Name)
  | fragment (name : Name)
  deriving DecidableEq

/-! ## Scopes -/

namespace ScopeSelections

/-- A scope holds an entry that is included. -/
def Holds (σ : Assignment) (s : ScopeSelections) : Slot → Prop
  | .field key => ∃ f ∈ s.fields, f.responseKey = key ∧ f.inclusion.holds σ = true
  | .fragment name => ∃ g ∈ s.fragments, g.1 = name ∧ g.2.holds σ = true

/-- A scope has an entry whose inclusion has a property. -/
def Reads (τ : Inclusion → Prop) (s : ScopeSelections) : Slot → Prop
  | .field key => ∃ f ∈ s.fields, f.responseKey = key ∧ τ f.inclusion
  | .fragment name => ∃ g ∈ s.fragments, g.1 = name ∧ τ g.2

theorem holds_iff {s : ScopeSelections} {slot : Slot} :
    s.Holds σ slot ↔ s.Reads (fun i => i.holds σ = true) slot := by
  cases slot <;> rfl

theorem reads_under_holds {s : ScopeSelections} {guard : Inclusion} {slot : Slot} :
    s.Reads (Inclusion.Under guard fun i => i.holds σ = true) slot
      ↔ s.Holds σ slot ∧ guard.holds σ = true := by
  cases slot <;>
    simp only [Reads, Holds, Inclusion.under_holds, ← and_assoc, ← exists_and_right]

/-- The keys of a scope's entries do not repeat. -/
structure Keyed (s : ScopeSelections) : Prop where
  fields : s.fields.Pairwise fun f g => f.responseKey ≠ g.responseKey
  fragments : s.fragments.Pairwise fun f g => f.1 ≠ g.1

theorem not_reads_empty (slot : Slot) : ¬ empty.Reads τ slot := by
  cases slot <;> simp [Reads, empty]

theorem keyed_empty : empty.Keyed :=
  ⟨List.Pairwise.nil, List.Pairwise.nil⟩

theorem reads_insertField (additive : Inclusion.Additive τ) (s : ScopeSelections) (f : MergedField)
    (slot : Slot) : (s.insertField f).Reads τ slot
      ↔ s.Reads τ slot ∨ slot = .field f.responseKey ∧ τ f.inclusion := by
  cases slot with
  | fragment name => simp [Reads, insertField]
  | field key =>
      refine Ordered.exists_upsert s.fields ?_ ?_
      · intro g found
        have same : g.responseKey = f.responseKey := by simpa using List.find?_some found
        simp only [same, additive _ _, Slot.field.injEq, eq_comm (a := key)]
        exact and_or_left
      · intro _
        simp only [Slot.field.injEq, eq_comm (a := key)]

theorem reads_insertFragment (additive : Inclusion.Additive τ) (s : ScopeSelections) (name : Name)
    (inclusion : Inclusion) (slot : Slot) :
    (s.insertFragment name inclusion).Reads τ slot
      ↔ s.Reads τ slot ∨ slot = .fragment name ∧ τ inclusion := by
  cases slot with
  | field key => simp [Reads, insertFragment]
  | fragment key =>
      refine Ordered.exists_upsert s.fragments ?_ ?_
      · intro g found
        have same : g.1 = name := by simpa using List.find?_some found
        simp only [same, additive _ _, Slot.fragment.injEq, eq_comm (a := key)]
        exact and_or_left
      · intro _
        simp only [Slot.fragment.injEq, eq_comm (a := key)]

theorem Keyed.insertField {s : ScopeSelections} (h : s.Keyed) (f : MergedField) :
    (s.insertField f).Keyed := by
  refine ⟨Ordered.pairwise_upsert h.fields (fun _ _ _ ne => ne) (fun _ _ _ ne => ne) ?_, h.fragments⟩
  intro g other
  simpa using other

theorem Keyed.insertFragment {s : ScopeSelections} (h : s.Keyed) (name : Name)
    (inclusion : Inclusion) : (s.insertFragment name inclusion).Keyed := by
  refine ⟨h.fields, Ordered.pairwise_upsert h.fragments (fun _ _ _ ne => ne) (fun _ _ _ ne => ne) ?_⟩
  intro g other
  simpa using other

/-- In a scope whose keys do not repeat the field of a key is the only one. -/
theorem Keyed.field?_eq_some_iff {s : ScopeSelections} (h : s.Keyed) {key : Name} {f : MergedField} :
    s.field? key = some f ↔ f ∈ s.fields ∧ f.responseKey = key := by
  constructor
  · intro found
    exact ⟨List.mem_of_find?_eq_some found, by simpa using List.find?_some found⟩
  · rintro ⟨mem, rfl⟩
    refine Ordered.find?_eq_some_of_apart (h.fields.imp ?_) mem (beq_self_eq_true _)
    intro g g' ne same
    rw [beq_iff_eq] at same
    simpa [← same] using ne.symm

/-- The inclusion of an entry, if there is one. -/
def inclusion? (s : ScopeSelections) : Slot → Option Inclusion
  | .field key => (s.field? key).map MergedField.inclusion
  | .fragment name => s.fragment? name

theorem fragment?_eq (s : ScopeSelections) (name : Name) :
    s.fragment? name = (s.fragments.find? fun g => g.1 == name).map Prod.snd :=
  Ordered.lookup_eq s.fragments name

/-- In a scope whose keys do not repeat the entry of a key is the only one. -/
theorem Keyed.inclusion?_eq_some_iff {s : ScopeSelections} (h : s.Keyed) {slot : Slot}
    {i : Inclusion} : s.inclusion? slot = some i ↔ s.Reads (· = i) slot := by
  cases slot with
  | field key =>
      simp only [inclusion?, Option.map_eq_some_iff, h.field?_eq_some_iff, and_assoc, Reads]
  | fragment name =>
      have found : ∀ g : Name × Inclusion, s.fragments.find? (fun g => g.1 == name) = some g
          ↔ g ∈ s.fragments ∧ g.1 = name := by
        intro g
        constructor
        · intro found
          exact ⟨List.mem_of_find?_eq_some found, by simpa using List.find?_some found⟩
        · rintro ⟨mem, rfl⟩
          refine Ordered.find?_eq_some_of_apart (h.fragments.imp ?_) mem (beq_self_eq_true _)
          intro a b ne same
          rw [beq_iff_eq] at same
          simpa [← same] using ne.symm
      simp only [inclusion?, fragment?_eq, Option.map_eq_some_iff, found, and_assoc, Reads]

/-- The inclusion of an entry is determined by its key. -/
theorem Keyed.reads_unique {s : ScopeSelections} (h : s.Keyed) {slot : Slot} {i j : Inclusion}
    (first : s.Reads (· = i) slot) (second : s.Reads (· = j) slot) : i = j :=
  Option.some.inj ((h.inclusion?_eq_some_iff.mpr first).symm.trans
    (h.inclusion?_eq_some_iff.mpr second))

/-- What is read is read of some inclusion. -/
theorem reads_iff_exists {s : ScopeSelections} {slot : Slot} :
    s.Reads τ slot ↔ ∃ i, s.Reads (· = i) slot ∧ τ i := by
  cases slot <;> simp [Reads, and_assoc]

end ScopeSelections

/-! ## Trees -/

namespace SelectionTree

/-- A tree holds an entry that is included, in a scope. -/
def Holds (σ : Assignment) (t : SelectionTree) (path : ScopePath) (slot : Slot) : Prop :=
  ∃ s ∈ t.scopes, (s.1 == path) = true ∧ s.2.Holds σ slot

/-- A tree has an entry in a scope whose inclusion has a property. -/
def Reads (τ : Inclusion → Prop) (t : SelectionTree) (path : ScopePath) (slot : Slot) : Prop :=
  ∃ s ∈ t.scopes, (s.1 == path) = true ∧ s.2.Reads τ slot

theorem holds_iff {t : SelectionTree} {path : ScopePath} {slot : Slot} :
    t.Holds σ path slot ↔ t.Reads (fun i => i.holds σ = true) path slot := by
  simp only [Holds, Reads, ScopeSelections.holds_iff]

/-- The keys of a tree do not repeat. -/
structure Keyed (t : SelectionTree) : Prop where
  scopes : t.scopes.Pairwise fun a b => (a.1 == b.1) = false
  entries : ∀ s ∈ t.scopes, s.2.Keyed

theorem not_reads_empty {types : TypePath} {path : ScopePath} {slot : Slot} :
    ¬ (empty types).Reads τ path slot := by
  simp [Reads, empty]

theorem not_holds_empty {types : TypePath} {path : ScopePath} {slot : Slot} :
    ¬ (empty types).Holds σ path slot := by
  rw [holds_iff]
  exact not_reads_empty

theorem keyed_empty (types : TypePath) : (empty types).Keyed :=
  ⟨List.Pairwise.nil, by simp [empty]⟩

/-- What a tree holds in a scope it holds in any equal scope. -/
theorem Holds.of_beq {t : SelectionTree} {path path' : ScopePath} {slot : Slot}
    (h : t.Holds σ path slot) (same : (path == path') = true) : t.Holds σ path' slot := by
  obtain ⟨s, mem, at_, holds⟩ := h
  exact ⟨s, mem, BEq.trans at_ same, holds⟩

/-- A change of one scope that is additive in its reading is additive in that of the tree. -/
theorem reads_modifyScope (t : SelectionTree) (target : ScopePath)
    {change : ScopeSelections → ScopeSelections} {Q : Slot → Prop}
    (adds : ∀ s slot, (change s).Reads τ slot ↔ s.Reads τ slot ∨ Q slot)
    (path : ScopePath) (slot : Slot) :
    (t.modifyScope target change).Reads τ path slot
      ↔ t.Reads τ path slot ∨ (target == path) = true ∧ Q slot := by
  refine Ordered.exists_upsert t.scopes ?_ ?_
  · -- The scope that changes is at `path` exactly when its target is.
    intro s found
    have wanted := List.find?_some found
    have same : (s.1 == path) = true ↔ (target == path) = true :=
      ⟨BEq.trans (BEq.symm wanted), BEq.trans wanted⟩
    simp only [adds, same]
    exact and_or_left
  · intro _
    simp only [adds, ScopeSelections.not_reads_empty, false_or]

theorem reads_insertField (additive : Inclusion.Additive τ) (t : SelectionTree) (target : ScopePath)
    (f : MergedField) (path : ScopePath) (slot : Slot) :
    (t.insertField target f).Reads τ path slot
      ↔ t.Reads τ path slot
        ∨ (target == path) = true ∧ slot = .field f.responseKey ∧ τ f.inclusion :=
  reads_modifyScope t target (fun s => s.reads_insertField additive f) path slot

theorem reads_insertFragment (additive : Inclusion.Additive τ) (t : SelectionTree)
    (target : ScopePath) (name : Name) (inclusion : Inclusion) (path : ScopePath) (slot : Slot) :
    (t.insertFragment target name inclusion).Reads τ path slot
      ↔ t.Reads τ path slot
        ∨ (target == path) = true ∧ slot = .fragment name ∧ τ inclusion :=
  reads_modifyScope t target (fun s => s.reads_insertFragment additive name inclusion) path slot

theorem holds_insertField (t : SelectionTree) (target : ScopePath) (f : MergedField)
    (path : ScopePath) (slot : Slot) :
    (t.insertField target f).Holds σ path slot
      ↔ t.Holds σ path slot
        ∨ (target == path) = true ∧ slot = .field f.responseKey ∧ f.inclusion.holds σ = true := by
  rw [holds_iff, holds_iff, reads_insertField (Inclusion.additive_holds σ)]

theorem holds_insertFragment (t : SelectionTree) (target : ScopePath) (name : Name)
    (inclusion : Inclusion) (path : ScopePath) (slot : Slot) :
    (t.insertFragment target name inclusion).Holds σ path slot
      ↔ t.Holds σ path slot
        ∨ (target == path) = true ∧ slot = .fragment name ∧ inclusion.holds σ = true := by
  rw [holds_iff, holds_iff, reads_insertFragment (Inclusion.additive_holds σ)]

theorem Keyed.modifyScope {t : SelectionTree} (h : t.Keyed) (target : ScopePath)
    {change : ScopeSelections → ScopeSelections} (keeps : ∀ s, s.Keyed → (change s).Keyed) :
    (t.modifyScope target change).Keyed where
  scopes := Ordered.pairwise_upsert h.scopes (fun _ _ _ apart => apart)
    (fun _ _ _ apart => apart) fun _ other => other
  entries := Ordered.forall_upsert h.entries (fun s mem _ => keeps s.2 (h.entries s mem))
    (keeps _ ScopeSelections.keyed_empty)

theorem Keyed.insertField {t : SelectionTree} (h : t.Keyed) (path : ScopePath) (f : MergedField) :
    (t.insertField path f).Keyed :=
  h.modifyScope path fun _ keyed => keyed.insertField f

theorem Keyed.insertFragment {t : SelectionTree} (h : t.Keyed) (path : ScopePath) (name : Name)
    (inclusion : Inclusion) : (t.insertFragment path name inclusion).Keyed :=
  h.modifyScope path fun _ keyed => keyed.insertFragment name inclusion

/-- The scope that is found by its path is the only one, up to equality of paths. -/
theorem Keyed.scope?_eq_some_iff {t : SelectionTree} (h : t.Keyed) {path : ScopePath}
    {s : ScopeSelections} :
    t.scope? path = some s ↔ ∃ p, (p, s) ∈ t.scopes ∧ (p == path) = true := by
  constructor
  · intro found
    obtain ⟨⟨p, s'⟩, first, rfl⟩ := Option.map_eq_some_iff.mp found
    have same := List.find?_some first
    exact ⟨p, List.mem_of_find?_eq_some first, same⟩
  · rintro ⟨p, mem, same⟩
    have first : t.scopes.find? (fun s => s.1 == path) = some (p, s) := by
      refine Ordered.find?_eq_some_of_apart (h.scopes.imp ?_) mem same
      intro a b apart sameA
      rw [Bool.eq_false_iff] at apart ⊢
      exact fun sameB => apart (BEq.trans sameA (BEq.symm sameB))
    rw [scope?, first, Option.map_some]

/-- What is read is read of some inclusion. -/
theorem reads_iff_exists {t : SelectionTree} {path : ScopePath} {slot : Slot} :
    t.Reads τ path slot ↔ ∃ i, t.Reads (· = i) path slot ∧ τ i := by
  simp only [Reads, ScopeSelections.reads_iff_exists (τ := τ)]
  constructor
  · rintro ⟨s, mem, same, i, read, held⟩
    exact ⟨i, ⟨s, mem, same, read⟩, held⟩
  · rintro ⟨i, ⟨s, mem, same, read⟩, held⟩
    exact ⟨s, mem, same, i, read, held⟩

/-- The inclusion of an entry in a scope, if there is one. -/
def inclusion? (t : SelectionTree) (path : ScopePath) (slot : Slot) : Option Inclusion :=
  (t.scope? path).bind (·.inclusion? slot)

theorem Keyed.inclusion?_eq_some_iff {t : SelectionTree} (h : t.Keyed) {path : ScopePath}
    {slot : Slot} {i : Inclusion} :
    t.inclusion? path slot = some i ↔ t.Reads (· = i) path slot := by
  simp only [inclusion?, Option.bind_eq_some_iff, h.scope?_eq_some_iff]
  constructor
  · rintro ⟨s, ⟨p, mem, same⟩, found⟩
    exact ⟨(p, s), mem, same, (h.entries _ mem).inclusion?_eq_some_iff.mp found⟩
  · rintro ⟨⟨p, s⟩, mem, same, read⟩
    exact ⟨s, ⟨p, mem, same⟩, (h.entries _ mem).inclusion?_eq_some_iff.mpr read⟩

/-- A tree is read by the entry of a key. -/
theorem Keyed.reads_iff_inclusion? {t : SelectionTree} (h : t.Keyed) {path : ScopePath}
    {slot : Slot} : t.Reads τ path slot ↔ ∃ i, t.inclusion? path slot = some i ∧ τ i := by
  rw [reads_iff_exists]
  simp only [h.inclusion?_eq_some_iff]

/-- The field of a response key in a scope. -/
def field? (t : SelectionTree) (path : ScopePath) (key : Name) : Option MergedField :=
  (t.scope? path).bind (·.field? key)

/-- The field of a key is held when its inclusion holds. -/
theorem Keyed.holds_field_iff {t : SelectionTree} (h : t.Keyed) {path : ScopePath} {key : Name} :
    t.Holds σ path (.field key)
      ↔ ∃ f, t.field? path key = some f ∧ f.inclusion.holds σ = true := by
  constructor
  · rintro ⟨⟨p, s⟩, mem, same, f, memF, keyF, holds⟩
    have keyed : s.Keyed := h.entries _ mem
    have scope := h.scope?_eq_some_iff.mpr ⟨p, mem, same⟩
    have field := keyed.field?_eq_some_iff.mpr ⟨memF, keyF⟩
    refine ⟨f, ?_, holds⟩
    rw [field?, scope, Option.bind_some, field]
  · rintro ⟨f, found, holds⟩
    obtain ⟨s, scope, field⟩ := Option.bind_eq_some_iff.mp found
    obtain ⟨p, mem, same⟩ := h.scope?_eq_some_iff.mp scope
    have keyed : s.Keyed := h.entries _ mem
    obtain ⟨memF, keyF⟩ := keyed.field?_eq_some_iff.mp field
    exact ⟨(p, s), mem, same, f, memF, keyF, holds⟩

/-! ## Merging -/

/-- Adds a field as far as the guard allows. -/
def mergeField (target : ScopePath) (guard : Inclusion) (t : SelectionTree) (f : MergedField) :
    SelectionTree :=
  match f.inclusion.under guard with
  | none => t
  | some inclusion => t.insertField target { f with inclusion }

/-- Adds the spread of a fragment as far as the guard allows. -/
def mergeFragment (target : ScopePath) (guard : Inclusion) (t : SelectionTree)
    (g : Name × Inclusion) : SelectionTree :=
  match g.2.under guard with
  | none => t
  | some inclusion => t.insertFragment target g.1 inclusion

theorem mergeScope_eq (t : SelectionTree) (target : ScopePath) (guard : Inclusion)
    (s : ScopeSelections) :
    t.mergeScope target guard s
      = s.fragments.foldl (mergeFragment target guard) (s.fields.foldl (mergeField target guard) t) :=
  rfl

/-- What every insertion below the site preserves, merging preserves. -/
theorem mergeTree_below {P : SelectionTree → Prop} {site : ScopePath}
    (field : ∀ t below f, P t → P (insertField t (site.concat below) f))
    (fragment : ∀ t below name inclusion, P t →
      P (insertFragment t (site.concat below) name inclusion))
    {t : SelectionTree} (start : P t) (other : SelectionTree) (guard : Inclusion) :
    P (t.mergeTree other site guard) := by
  refine List.foldlRecOn (motive := P) other.scopes _ start ?_
  rintro t held ⟨path, s⟩ -
  -- The fields of a scope come first, then its fragments.
  show P (t.mergeScope (site.concat path) guard s)
  rw [mergeScope_eq]
  refine List.foldlRecOn (motive := P) s.fragments _ ?_ ?_
  · refine List.foldlRecOn (motive := P) s.fields _ held ?_
    intro t held f _
    unfold mergeField
    cases f.inclusion.under guard with
    | none => exact held
    | some inclusion => exact field _ _ _ held
  · intro t held g _
    unfold mergeFragment
    cases g.2.under guard with
    | none => exact held
    | some inclusion => exact fragment _ _ _ _ held

/-- What every insertion preserves, merging preserves. -/
theorem mergeTree_induction {P : SelectionTree → Prop}
    (field : ∀ t path f, P t → P (insertField t path f))
    (fragment : ∀ t path name inclusion, P t → P (insertFragment t path name inclusion))
    {t : SelectionTree} (start : P t) (other : SelectionTree) (site : ScopePath)
    (guard : Inclusion) : P (t.mergeTree other site guard) :=
  mergeTree_below (fun t _ => field t _) (fun t _ => fragment t _) start other guard

/-- What is put into a scope under a guard is read there as it is under the guard. -/
theorem reads_under {t : SelectionTree} {put : Inclusion → SelectionTree} {path : ScopePath}
    {slot : Slot} {here key : Prop} (i guard : Inclusion)
    (adds : ∀ j, (put j).Reads τ path slot ↔ t.Reads τ path slot ∨ here ∧ key ∧ τ j) :
    ((i.under guard).elim t put).Reads τ path slot
      ↔ t.Reads τ path slot ∨ here ∧ key ∧ Inclusion.Under guard τ i := by
  unfold Inclusion.Under
  cases i.under guard with
  | none => simp
  | some j => rw [Option.elim_some, adds]; simp

theorem reads_mergeField (additive : Inclusion.Additive τ) (t : SelectionTree) (target : ScopePath)
    (guard : Inclusion) (f : MergedField) (path : ScopePath) (slot : Slot) :
    (t.mergeField target guard f).Reads τ path slot
      ↔ t.Reads τ path slot ∨ (target == path) = true
        ∧ slot = .field f.responseKey ∧ Inclusion.Under guard τ f.inclusion := by
  have step : t.mergeField target guard f
      = (f.inclusion.under guard).elim t fun inclusion =>
          t.insertField target { f with inclusion } := by
    unfold mergeField
    cases f.inclusion.under guard <;> rfl
  rw [step]
  exact reads_under f.inclusion guard fun j =>
    t.reads_insertField additive target { f with inclusion := j } path slot

theorem reads_mergeFragment (additive : Inclusion.Additive τ) (t : SelectionTree)
    (target : ScopePath) (guard : Inclusion) (g : Name × Inclusion) (path : ScopePath) (slot : Slot) :
    (t.mergeFragment target guard g).Reads τ path slot
      ↔ t.Reads τ path slot ∨ (target == path) = true
        ∧ slot = .fragment g.1 ∧ Inclusion.Under guard τ g.2 := by
  have step : t.mergeFragment target guard g
      = (g.2.under guard).elim t (t.insertFragment target g.1) := by
    unfold mergeFragment
    cases g.2.under guard <;> rfl
  rw [step]
  exact reads_under g.2 guard fun j => t.reads_insertFragment additive target g.1 j path slot

/-- A step that adds something for its entry adds it for some entry of a whole list. -/
theorem reads_foldl {α : Type} {step : SelectionTree → α → SelectionTree} {Q : α → Prop}
    {path : ScopePath} {slot : Slot}
    (adds : ∀ t a, (step t a).Reads τ path slot ↔ t.Reads τ path slot ∨ Q a)
    (l : List α) (t : SelectionTree) :
    (l.foldl step t).Reads τ path slot ↔ t.Reads τ path slot ∨ ∃ a ∈ l, Q a := by
  induction l generalizing t with
  | nil => simp
  | cons a l ih => rw [List.foldl_cons, ih, adds, List.exists_mem_cons_iff, or_assoc]

theorem reads_mergeScope (additive : Inclusion.Additive τ) (t : SelectionTree) (target : ScopePath)
    (guard : Inclusion) (s : ScopeSelections) (path : ScopePath) (slot : Slot) :
    (t.mergeScope target guard s).Reads τ path slot
      ↔ t.Reads τ path slot
        ∨ (target == path) = true ∧ s.Reads (Inclusion.Under guard τ) slot := by
  rw [mergeScope_eq, reads_foldl fun t g => reads_mergeFragment additive t target guard g path slot,
    reads_foldl fun t f => reads_mergeField additive t target guard f path slot, or_assoc]
  refine or_congr_right ?_
  cases slot with
  | field key =>
      simp only [ScopeSelections.Reads, Slot.field.injEq, reduceCtorEq, false_and, and_false,
        exists_false, or_false, eq_comm (a := key)]
      exact ⟨fun ⟨f, mem, at_, read⟩ => ⟨at_, f, mem, read⟩,
        fun ⟨at_, f, mem, read⟩ => ⟨f, mem, at_, read⟩⟩
  | fragment name =>
      simp only [ScopeSelections.Reads, Slot.fragment.injEq, reduceCtorEq, false_and, and_false,
        exists_false, false_or, eq_comm (a := name)]
      exact ⟨fun ⟨g, mem, at_, read⟩ => ⟨at_, g, mem, read⟩,
        fun ⟨at_, g, mem, read⟩ => ⟨g, mem, at_, read⟩⟩

/-- Merging adds what the other tree has, below the site and as it is under the guard. -/
theorem reads_mergeTree (additive : Inclusion.Additive τ) (t other : SelectionTree)
    (site : ScopePath) (guard : Inclusion) (path : ScopePath) (slot : Slot) :
    (t.mergeTree other site guard).Reads τ path slot
      ↔ t.Reads τ path slot
        ∨ ∃ below, (site.concat below == path) = true
          ∧ other.Reads (Inclusion.Under guard τ) below slot := by
  -- Scopes are merged one by one; `below` is the path of one of them, up to equality.
  rw [mergeTree, reads_foldl fun t s =>
    reads_mergeScope additive t (site.concat s.1) guard s.2 path slot]
  refine or_congr_right ⟨?_, ?_⟩
  · rintro ⟨s, mem, at_, read⟩
    exact ⟨s.1, at_, s, mem, BEq.refl _, read⟩
  · rintro ⟨below, at_, s, mem, same, read⟩
    exact ⟨s, mem, BEq.trans (ScopePath.concat_congr (BEq.refl site) same) at_, read⟩

/-- Under a guard a tree has the entries that it holds, where the guard holds too. -/
theorem reads_under_holds {t : SelectionTree} {guard : Inclusion} {path : ScopePath} {slot : Slot} :
    t.Reads (Inclusion.Under guard fun i => i.holds σ = true) path slot
      ↔ t.Holds σ path slot ∧ guard.holds σ = true := by
  simp only [Reads, Holds, ScopeSelections.reads_under_holds, ← and_assoc, ← exists_and_right]

/-- Merging adds what the other tree holds, below the site, where the guard holds too. -/
theorem holds_mergeTree (t other : SelectionTree) (site : ScopePath) (guard : Inclusion)
    (path : ScopePath) (slot : Slot) :
    (t.mergeTree other site guard).Holds σ path slot
      ↔ t.Holds σ path slot
        ∨ (∃ below, (site.concat below == path) = true ∧ other.Holds σ below slot)
          ∧ guard.holds σ = true := by
  rw [holds_iff, holds_iff, reads_mergeTree (Inclusion.additive_holds σ)]
  simp only [reads_under_holds, ← and_assoc, ← exists_and_right]

theorem Keyed.mergeTree {t : SelectionTree} (h : t.Keyed) (other : SelectionTree) (site : ScopePath)
    (guard : Inclusion) : (t.mergeTree other site guard).Keyed :=
  mergeTree_induction (fun _ path f keyed => keyed.insertField path f)
    (fun _ path name inclusion keyed => keyed.insertFragment path name inclusion) h other site guard

/-! ## Types -/

@[simp] theorem typePath_mergeTree (t other : SelectionTree) (site : ScopePath) (guard : Inclusion) :
    (t.mergeTree other site guard).typePath = t.typePath :=
  mergeTree_induction (P := fun u => u.typePath = t.typePath) (fun _ _ _ eq => eq)
    (fun _ _ _ _ eq => eq) rfl other site guard

end SelectionTree
end SelectionGraph
