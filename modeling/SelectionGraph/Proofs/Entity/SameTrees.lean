import SelectionGraph.Proofs.Entity.Arises
import SelectionGraph.Proofs.Entity.Entries
import SelectionGraph.Proofs.Entity.Sources

/-!
# SameTrees — trees are equal when they are read alike

`==` on trees compares scopes, fields and fragments by key.  Trees whose keys do not repeat are equal
if they are read alike and record the same fields, provided that none of their scopes is empty: an
empty scope is read nowhere, and `==` sees it.

* `Arises.trees`          — what holds of empty trees and is kept by insertions, holds of all trees of
  a storage that arises;
* `SelectionTree.Filled`  — every scope has an entry;
* `SelectionTree.beq_of_reads` — when trees are equal.
-/

namespace SelectionGraph

/-! ## Scopes are not empty -/

/-- Every tree of a storage comes from an empty one by insertions. -/
theorem EntityStorage.Arises.trees {P : SelectionTree → Prop} (empty : ∀ types, P (.empty types))
    (field : ∀ t path f, P t → P (SelectionTree.insertField t path f))
    (fragment : ∀ t path name inclusion, P t →
      P (SelectionTree.insertFragment t path name inclusion))
    {s : EntityStorage} (h : s.Arises) : ∀ e ∈ s.entities, P e.tree := by
  have at_ : ∀ {s s' : EntityStorage} {location : Location} {types : TypePath} {e : Entity},
      s.entityAt location types = (e, s') → (∀ d ∈ s.entities, P d.tree) →
      ∀ d ∈ s'.entities, P d.tree := by
    intro s s' location types e found held
    unfold entityAt at found
    split at found
    · cases found
      exact held
    · cases found
      simp only [List.forall_mem_append, List.forall_mem_singleton]
      exact ⟨held, empty types⟩
  induction h with
  | start source => simpa [EntityStorage.start] using empty _
  | entityForField _ selected ih =>
      obtain ⟨e, -, result⟩ := bind_eq_ok.mp selected
      cases result
      exact at_ rfl ih
  | mergeFragment before arisen merged ih _ =>
      obtain ⟨site, get, -⟩ := bind_eq_ok.mp merged
      refine mergeFragmentEntities_induction before.wellFormed arisen.wellFormed
        (get_eq_ok_iff.mp get) (P := fun _ t => ∀ d ∈ t.entities, P d.tree) ?_ ih merged
      intro _ d t t' mem _ _ one _ held
      obtain ⟨_, _, e, u, -, -, -, found, rfl⟩ := mergeEntity_spec (arisen.wellFormed.types d mem) one
      exact Ordered.forall_modify (at_ found held) fun a heldA =>
        SelectionTree.mergeTree_induction field fragment heldA d.tree _ _
  | insertField id scope f _ ih => exact Ordered.forall_modify ih fun a => field a.tree scope f
  | insertFragment id scope name inclusion _ ih =>
      exact Ordered.forall_modify ih fun a => fragment a.tree scope name inclusion

namespace SelectionTree

/-- Every scope of a tree has an entry. -/
def Filled (t : SelectionTree) : Prop :=
  ∀ s ∈ t.scopes, ∃ slot, s.2.Reads (fun _ => True) slot

theorem Filled.modifyScope {t : SelectionTree} (h : t.Filled) (target : ScopePath)
    {change : ScopeSelections → ScopeSelections} {slot : Slot}
    (fills : ∀ s, (change s).Reads (fun _ => True) slot) : (t.modifyScope target change).Filled :=
  Ordered.forall_upsert h (fun s _ _ => ⟨slot, fills s.2⟩) ⟨slot, fills _⟩

theorem Filled.insertField {t : SelectionTree} (h : t.Filled) (path : ScopePath) (f : MergedField) :
    (t.insertField path f).Filled :=
  h.modifyScope path fun s =>
    (s.reads_insertField Inclusion.additive_true f _).mpr (Or.inr ⟨rfl, trivial⟩)

theorem Filled.insertFragment {t : SelectionTree} (h : t.Filled) (path : ScopePath) (name : Name)
    (inclusion : Inclusion) : (t.insertFragment path name inclusion).Filled :=
  h.modifyScope path fun s =>
    (s.reads_insertFragment Inclusion.additive_true name inclusion _).mpr (Or.inr ⟨rfl, trivial⟩)

end SelectionTree

theorem EntityStorage.Arises.filled {s : EntityStorage} (h : s.Arises) :
    ∀ e ∈ s.entities, e.tree.Filled :=
  h.trees (fun _ => by simp [SelectionTree.Filled, SelectionTree.empty])
    (fun _ path f filled => filled.insertField path f)
    fun _ path name inclusion filled => filled.insertFragment path name inclusion

/-! ## Equality -/

/-- Scopes are equal when they are read alike and fields of one key have one name and type. -/
theorem ScopeSelections.beq_of_reads {s s' : ScopeSelections} (keyed : s.Keyed) (keyed' : s'.Keyed)
    (same : ∀ τ, Inclusion.Respects τ → ∀ slot, s.Reads τ slot ↔ s'.Reads τ slot)
    (named : ∀ f ∈ s.fields, ∀ g ∈ s'.fields, f.responseKey = g.responseKey →
      f.name = g.name ∧ f.type = g.type) : (s == s') = true := by
  have equals : ∀ i : Inclusion, Inclusion.Respects fun j => (i == j) = true :=
    fun i j k both held => BEq.trans held both
  change (Ordered.same MergedField.responseKey (· == ·) s.fields s'.fields
    && Ordered.same Prod.fst (· == ·) s.fragments s'.fragments) = true
  rw [Bool.and_eq_true]
  constructor
  · refine Ordered.same_of_covered (keyed.fields.imp beq_eq_false_iff_ne.mpr)
      (keyed'.fields.imp beq_eq_false_iff_ne.mpr) (fun f mem => ?_) fun g mem => ?_
    · obtain ⟨g, memG, key, inclusion⟩ :=
        (same _ (equals f.inclusion) (.field f.responseKey)).mp ⟨f, mem, rfl, BEq.rfl⟩
      obtain ⟨name, type⟩ := named f mem g memG key.symm
      refine ⟨g, memG, beq_iff_eq.mpr key, ?_⟩
      change (f.responseKey == g.responseKey && (f.name == g.name && (f.type == g.type
        && f.inclusion == g.inclusion))) = true
      simp only [key, name, type, inclusion, beq_self_eq_true, Bool.and_self]
    · obtain ⟨f, memF, key, -⟩ :=
        (same _ Inclusion.respects_true (.field g.responseKey)).mpr ⟨g, mem, rfl, trivial⟩
      exact ⟨f, memF, beq_iff_eq.mpr key⟩
  · refine Ordered.same_of_covered (keyed.fragments.imp beq_eq_false_iff_ne.mpr)
      (keyed'.fragments.imp beq_eq_false_iff_ne.mpr) (fun f mem => ?_) fun g mem => ?_
    · obtain ⟨g, memG, name, inclusion⟩ :=
        (same _ (equals f.2) (.fragment f.1)).mp ⟨f, mem, rfl, BEq.rfl⟩
      refine ⟨g, memG, beq_iff_eq.mpr name, ?_⟩
      change (f.1 == g.1 && f.2 == g.2) = true
      simp only [name, inclusion, beq_self_eq_true, Bool.and_self]
    · obtain ⟨f, memF, name, -⟩ :=
        (same _ Inclusion.respects_true (.fragment g.1)).mpr ⟨g, mem, rfl, trivial⟩
      exact ⟨f, memF, beq_iff_eq.mpr name⟩

namespace SelectionTree

variable {t t' : SelectionTree} {τ : Inclusion → Prop} {slot : Slot}

/-- A tree is read in a scope as the scope is. -/
theorem Keyed.reads_iff (h : t.Keyed) {x : ScopePath × ScopeSelections} (mem : x ∈ t.scopes)
    {path : ScopePath} (same : (x.1 == path) = true) :
    t.Reads τ path slot ↔ x.2.Reads τ slot := by
  constructor
  · rintro ⟨y, memY, sameY, read⟩
    rw [h.scope_unique mem memY (BEq.trans same (BEq.symm sameY))]
    exact read
  · exact fun read => ⟨x, mem, same, read⟩

/-- Trees without empty scopes are equal when they are read alike and record the same fields. -/
theorem beq_of_reads (keyed : t.Keyed) (keyed' : t'.Keyed) (filled : t.Filled) (filled' : t'.Filled)
    (types : t.typePath = t'.typePath)
    (same : ∀ τ, Inclusion.Respects τ → ∀ path slot, t.Reads τ path slot ↔ t'.Reads τ path slot)
    (named : ∀ path key name type name' type', t.Records path key name type →
      t'.Records path key name' type' → name = name' ∧ type = type') : (t == t') = true := by
  change (t.typePath == t'.typePath
    && Ordered.same Prod.fst (fun a b => a.2 == b.2) t.scopes t'.scopes) = true
  rw [Bool.and_eq_true]
  refine ⟨beq_iff_eq.mpr types, ?_⟩
  -- Keys do not repeat on either side, so each side has only to cover the other.
  refine Ordered.same_of_covered keyed.scopes keyed'.scopes (fun x mem => ?_) fun y mem => ?_
  · -- An entry of the scope is one of the other tree too, so that the scope is there.
    obtain ⟨slot, read⟩ := filled x mem
    obtain ⟨y, memY, sameY, -⟩ :=
      (same _ Inclusion.respects_true x.1 slot).mp ⟨x, mem, BEq.rfl, read⟩
    refine ⟨y, memY, sameY, ScopeSelections.beq_of_reads (keyed.entries x mem)
      (keyed'.entries y memY) (fun τ respects slot => ?_) fun f memF g memG key => ?_⟩
    · rw [← keyed.reads_iff mem BEq.rfl, same τ respects, keyed'.reads_iff memY sameY]
    · exact named x.1 f.responseKey _ _ _ _ ⟨x, mem, BEq.rfl, f, memF, rfl, rfl, rfl⟩
        ⟨y, memY, sameY, g, memG, key.symm, rfl, rfl⟩
  · obtain ⟨slot, read⟩ := filled' y mem
    obtain ⟨x, memX, sameX, -⟩ :=
      (same _ Inclusion.respects_true y.1 slot).mpr ⟨y, mem, BEq.rfl, read⟩
    exact ⟨x, memX, sameX⟩

end SelectionTree
end SelectionGraph
