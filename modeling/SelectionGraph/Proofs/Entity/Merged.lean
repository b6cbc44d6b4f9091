import SelectionGraph.Proofs.Entity.Sources
import SelectionGraph.Proofs.Inclusion.Laws

/-!
# Merged — what merging a tree does, and what it leaves alone

`mergeTree` puts the selections of one tree below a scope of another, under a guard.  What it does is
said for each entry, found by the path of its scope and its key: whether it is there afterwards, and
under which values it is included.  What was there before stays in its place.

* `SelectionTree.Brings`      — an entry of the merged tree that can be included under the guard;
* `SelectionTree.Grows`       — entries keep their place, name and type;
* `SelectionTree.MergedBelow` — what merging comes to;
* `SelectionTree.SameEntries` — two trees have the same entries, included under the same values;
* `SelectionTree.mergeUnder`  — merging under two guards;
* `merging_adds_below_the_site` — merging comes to that, and merging what was merged comes to merging
  one after the other.

The last is no equality of trees.  A selection that is always included absorbs whatever else selects the
same, but once it is under a guard it is not always included any more: `$g` if the two were merged before,
and `$g || $a && $g` if they are merged after it.
-/

namespace SelectionGraph

variable {σ : Assignment}

/-! ## Scopes -/

namespace MergedField

/-- What a field keeps when it is merged. -/
def signature (f : MergedField) : Name × Name × TypeRef :=
  (f.responseKey, f.name, f.type)

theorem eq_of_signature {f g : MergedField} (same : g.signature = f.signature) :
    g = { f with inclusion := g.inclusion } := by
  cases f
  cases g
  cases same
  rfl

end MergedField

namespace ScopeSelections

variable {s s' s'' : ScopeSelections}

/-- The entries of one scope are the first of another, in their order. -/
structure Grows (s s' : ScopeSelections) : Prop where
  fields : s.fields.map MergedField.signature <+: s'.fields.map MergedField.signature
  fragments : s.fragments.map Prod.fst <+: s'.fragments.map Prod.fst

theorem Grows.trans (first : s.Grows s') (second : s'.Grows s'') : s.Grows s'' :=
  ⟨first.fields.trans second.fields, first.fragments.trans second.fragments⟩

theorem grows_insertField (s : ScopeSelections) (f : MergedField) : s.Grows (s.insertField f) := by
  refine ⟨Ordered.prefix_upsert ?_ s.fields, List.prefix_rfl⟩
  exact fun _ => rfl

theorem grows_insertFragment (s : ScopeSelections) (name : Name) (inclusion : Inclusion) :
    s.Grows (s.insertFragment name inclusion) := by
  refine ⟨List.prefix_rfl, Ordered.prefix_upsert ?_ s.fragments⟩
  exact fun _ => rfl

/-- A field is found where it was, with its name and type. -/
theorem Grows.field? (h : s.Grows s') {key : Name} {f : MergedField} (found : s.field? key = some f) :
    ∃ i, s'.field? key = some { f with inclusion := i } := by
  have sign : ∀ l : List MergedField,
      (l.map MergedField.signature).find? (fun n => n.1 == key)
        = (l.find? fun f => f.responseKey == key).map MergedField.signature :=
    fun l => List.find?_map
  have before : (s.fields.map MergedField.signature).find? (fun n => n.1 == key)
      = some f.signature := by
    rw [sign]
    exact congrArg (Option.map MergedField.signature) found
  have after := h.fields.find?_eq_some before
  rw [sign, Option.map_eq_some_iff] at after
  obtain ⟨g, found', same⟩ := after
  exact ⟨g.inclusion, MergedField.eq_of_signature same ▸ found'⟩

end ScopeSelections

/-! ## Trees -/

namespace SelectionTree

variable {t t' t'' o : SelectionTree} {site path : ScopePath} {guard : Inclusion} {slot : Slot}

/-- The scope that is modified is found modified, the others as they were. -/
theorem scope?_modifyScope (t : SelectionTree) (target path : ScopePath)
    (change : ScopeSelections → ScopeSelections) :
    (t.modifyScope target change).scope? path
      = if target == path then some (change ((t.scope? path).getD .empty)) else t.scope? path := by
  by_cases same : (target == path) = true
  · have alike : (fun s : ScopePath × ScopeSelections => s.1 == path) = fun s => s.1 == target := by
      funext s
      rw [Bool.eq_iff_iff]
      exact ⟨fun h => BEq.trans h (BEq.symm same), fun h => BEq.trans h same⟩
    rw [if_pos same, scope?, scope?, alike]
    refine (congrArg (Option.map Prod.snd) (Ordered.find?_upsert ?added ?keeps t.scopes)).trans ?_
    case added => exact BEq.refl target
    case keeps => exact fun _ held => held
    cases t.scopes.find? fun s => s.1 == target <;> rfl
  · have apart : ∀ s : ScopePath × ScopeSelections, (s.1 == target) = true → (s.1 == path) = false := by
      intro s h
      rw [Bool.eq_false_iff]
      exact fun h' => same (BEq.trans (BEq.symm h) h')
    rw [if_neg same]
    refine congrArg (Option.map Prod.snd)
      (Ordered.find?_upsert_of_other ?added apart ?keeps t.scopes)
    case added => exact Bool.eq_false_iff.mpr same
    case keeps => exact apart

/-- The scopes of one tree are the first of another, and each has grown. -/
structure Grows (t t' : SelectionTree) : Prop where
  scopes : t.scopes.map Prod.fst <+: t'.scopes.map Prod.fst
  entries : ∀ path s, t.scope? path = some s → ∃ s', t'.scope? path = some s' ∧ s.Grows s'

theorem Grows.refl (t : SelectionTree) : t.Grows t :=
  ⟨List.prefix_rfl, fun _ s found => ⟨s, found, List.prefix_rfl, List.prefix_rfl⟩⟩

theorem Grows.modifyScope (h : t.Grows t') (target : ScopePath)
    {change : ScopeSelections → ScopeSelections} (grows : ∀ s : ScopeSelections, s.Grows (change s)) :
    t.Grows (t'.modifyScope target change) where
  scopes := by
    refine h.scopes.trans (Ordered.prefix_upsert ?_ t'.scopes)
    exact fun _ => rfl
  entries path s found := by
    obtain ⟨s', found', grown⟩ := h.entries path s found
    rw [scope?_modifyScope, found', Option.getD_some]
    split
    · exact ⟨change s', rfl, grown.trans (grows s')⟩
    · exact ⟨s', rfl, grown⟩

/-- Merging changes no place, name or type. -/
theorem grows_mergeTree (t o : SelectionTree) (site : ScopePath) (guard : Inclusion) :
    t.Grows (t.mergeTree o site guard) :=
  mergeTree_induction (fun _ path f grown => grown.modifyScope path fun s => s.grows_insertField f)
    (fun _ path name i grown => grown.modifyScope path fun s => s.grows_insertFragment name i)
    (Grows.refl t) o site guard

/-- Merging changes no scope that is not below the site. -/
theorem scope?_mergeTree_of_apart (apart : ∀ below, (site.concat below == path) = false) :
    (t.mergeTree o site guard).scope? path = t.scope? path := by
  refine mergeTree_below (P := fun u => u.scope? path = t.scope? path) ?_ ?_ rfl o guard
  · intro u below f same
    rw [insertField, scope?_modifyScope, apart, if_neg Bool.false_ne_true, same]
  · intro u below name i same
    rw [insertFragment, scope?_modifyScope, apart, if_neg Bool.false_ne_true, same]

/-! ## Entries of trees -/

/-- An entry holds when its inclusion does. -/
theorem Keyed.any_inclusion? (h : t.Keyed) :
    (t.inclusion? path slot).any (Inclusion.holds σ) = true ↔ t.Holds σ path slot := by
  rw [Option.any_eq_true, holds_iff, h.reads_iff_inclusion?]

/-- An entry is there if it holds for some values. -/
theorem Keyed.isSome_inclusion? (h : t.Keyed) :
    (t.inclusion? path slot).isSome = true ↔ ∃ σ, t.Holds σ path slot := by
  simp only [Inclusion.isSome_iff_exists_holds, h.any_inclusion?]

/-- A recorded field is found by its key. -/
theorem Keyed.field?_of_records (h : t.Keyed) {key name : Name} {type : TypeRef}
    (recorded : t.Records path key name type) :
    ∃ f, t.field? path key = some f ∧ f.name = name ∧ f.type = type := by
  obtain ⟨⟨p, s⟩, mem, same, f, memF, keyed, named⟩ := recorded
  refine ⟨f, ?_, named⟩
  rw [field?, h.scope?_eq_some_iff.mpr ⟨p, mem, same⟩, Option.bind_some,
    (h.entries _ mem).field?_eq_some_iff.mpr ⟨memF, keyed⟩]

/-- A tree has an entry below the site that can be included together with the guard. -/
def Brings (o : SelectionTree) (site : ScopePath) (guard : Inclusion) (path : ScopePath)
    (slot : Slot) : Prop :=
  ∃ below, (site.concat below == path) = true
    ∧ ∃ i, o.inclusion? below slot = some i ∧ ∃ σ, i.holds σ = true ∧ guard.holds σ = true

theorem Keyed.brings_iff (h : o.Keyed) :
    o.Brings site guard path slot ↔ ∃ σ,
      (∃ below, (site.concat below == path) = true ∧ o.Holds σ below slot)
        ∧ guard.holds σ = true := by
  simp only [holds_iff, h.reads_iff_inclusion?]
  constructor
  · rintro ⟨below, at_, i, found, σ, holds, guarded⟩
    exact ⟨σ, ⟨below, at_, i, found, holds⟩, guarded⟩
  · rintro ⟨σ, ⟨below, at_, i, found, holds⟩, guarded⟩
    exact ⟨below, at_, i, found, σ, holds, guarded⟩

/-- A scope that was not there has an entry. -/
theorem reads_of_scope?_mergeTree (there : ((t.mergeTree o site guard).scope? path).isSome = true) :
    (t.scope? path).isSome = true
      ∨ ∃ slot, (t.mergeTree o site guard).Reads (fun _ => True) path slot := by
  let P : SelectionTree → Prop := fun u =>
    (u.scope? path).isSome = true →
      (t.scope? path).isSome = true ∨ ∃ slot, u.Reads (fun _ => True) path slot
  -- An insertion leaves an entry in the scope that it modifies.
  have step : ∀ (u : SelectionTree) (target : ScopePath) (slot : Slot)
      (change : ScopeSelections → ScopeSelections),
      (∀ s x, (change s).Reads (fun _ => True) x ↔ s.Reads (fun _ => True) x ∨ x = slot ∧ True) →
      P u → P (u.modifyScope target change) := by
    intro u target slot change adds held there
    have reads := fun x => u.reads_modifyScope target adds path x
    by_cases same : (target == path) = true
    · exact Or.inr ⟨slot, (reads slot).mpr (Or.inr ⟨same, rfl, trivial⟩)⟩
    · rw [scope?_modifyScope, if_neg same] at there
      exact (held there).imp_right fun ⟨x, read⟩ => ⟨x, (reads x).mpr (Or.inl read)⟩
  refine mergeTree_induction (P := P) (fun u target f => ?_) (fun u target name i => ?_) Or.inl o site
    guard there
  · exact step u target (.field f.responseKey) _ fun s => s.reads_insertField Inclusion.additive_true f
  · exact step u target (.fragment name) _ fun s =>
      s.reads_insertFragment Inclusion.additive_true name i

/-! ## Merging -/

/-- What merging `o` into `t` below the site and under the guard comes to. -/
structure MergedBelow (t o : SelectionTree) (site : ScopePath) (guard : Inclusion)
    (t' : SelectionTree) : Prop where
  /-- Keys do not repeat. -/
  keyed : t'.Keyed
  /-- An entry is there if it was, or is one of `o` that can be included under the guard. -/
  present : ∀ path slot, (t'.inclusion? path slot).isSome = true
    ↔ (t.inclusion? path slot).isSome = true ∨ o.Brings site guard path slot
  /-- It is included where it was, and where the one of `o` is included and the guard holds. -/
  included : ∀ σ path slot, (t'.inclusion? path slot).any (Inclusion.holds σ) = true
    ↔ (t.inclusion? path slot).any (Inclusion.holds σ) = true
      ∨ (∃ below, (site.concat below == path) = true
          ∧ (o.inclusion? below slot).any (Inclusion.holds σ) = true) ∧ guard.holds σ = true
  /-- A field that was there keeps its name and type. -/
  held : ∀ path key f, t.field? path key = some f →
    ∃ i, t'.field? path key = some { f with inclusion := i }
  /-- A field that was not has the name and type of the one of `o`. -/
  added : ∀ path key f', t.field? path key = none → t'.field? path key = some f' →
    ∃ below f, (site.concat below == path) = true ∧ o.field? below key = some f
      ∧ f'.name = f.name ∧ f'.type = f.type
  /-- Scopes that are not below the site are as they were. -/
  apart : ∀ path, (∀ below, (site.concat below == path) = false) → t'.scope? path = t.scope? path
  /-- What was there comes first, in its order. -/
  grows : t.Grows t'
  /-- The types down to the entity are as they were. -/
  types : t'.typePath = t.typePath
  /-- There is no new scope but for an entry that can be included. -/
  scopes : ∀ path, (t'.scope? path).isSome = true
    ↔ (t.scope? path).isSome = true ∨ ∃ slot, o.Brings site guard path slot

theorem Keyed.mergedBelow (keyedT : t.Keyed) (keyedO : o.Keyed) (site : ScopePath)
    (guard : Inclusion) : MergedBelow t o site guard (t.mergeTree o site guard) := by
  have keyed := keyedT.mergeTree o site guard
  have present : ∀ path slot, ((t.mergeTree o site guard).inclusion? path slot).isSome = true
      ↔ (t.inclusion? path slot).isSome = true ∨ o.Brings site guard path slot := by
    intro path slot
    rw [keyed.isSome_inclusion?, keyedT.isSome_inclusion?, keyedO.brings_iff, ← exists_or]
    simp only [holds_mergeTree]
  have grows := grows_mergeTree t o site guard
  refine
    { keyed := keyed
      present := present
      included := fun σ path slot => ?included
      held := fun path key f found => ?held
      added := fun path key f' absent found => ?added
      apart := fun path apart => scope?_mergeTree_of_apart apart
      grows := grows
      types := typePath_mergeTree t o site guard
      scopes := fun path => ⟨fun there => ?created, ?kept⟩ }
  case included =>
    rw [keyed.any_inclusion?, keyedT.any_inclusion?, holds_mergeTree]
    simp only [keyedO.any_inclusion?]
  case held =>
    obtain ⟨s, scope, field⟩ := Option.bind_eq_some_iff.mp found
    obtain ⟨s', scope', grown⟩ := grows.entries path s scope
    obtain ⟨i, field'⟩ := grown.field? field
    exact ⟨i, by rw [field?, scope', Option.bind_some, field']⟩
  case added =>
    rcases (records_of_field? found).of_mergeTree with recorded | ⟨below, at_, recorded⟩
    · obtain ⟨f, found, -⟩ := keyedT.field?_of_records recorded
      cases found.symm.trans absent
    · obtain ⟨f, found, name, type⟩ := keyedO.field?_of_records recorded
      exact ⟨below, f, at_, found, name.symm, type.symm⟩
  case created =>
    rcases reads_of_scope?_mergeTree there with held | ⟨slot, read⟩
    · exact Or.inl held
    obtain ⟨i, found, -⟩ := keyed.reads_iff_inclusion?.mp read
    rcases (present path slot).mp (by rw [found]; rfl) with held | brought
    · obtain ⟨j, found⟩ := Option.isSome_iff_exists.mp held
      obtain ⟨s, scope, -⟩ := Option.bind_eq_some_iff.mp found
      exact Or.inl (by rw [scope]; rfl)
    · exact Or.inr ⟨slot, brought⟩
  case kept =>
    rintro (held | ⟨slot, brought⟩)
    · obtain ⟨s, scope⟩ := Option.isSome_iff_exists.mp held
      obtain ⟨s', scope', -⟩ := grows.entries path s scope
      rw [scope']
      rfl
    · obtain ⟨i, found⟩ := Option.isSome_iff_exists.mp ((present path slot).mpr (Or.inr brought))
      obtain ⟨s, scope, -⟩ := Option.bind_eq_some_iff.mp found
      rw [scope]
      rfl

/-! ## Merging what was merged -/

/-- Two trees have entries under the same keys, included under the same values. -/
def SameEntries (t u : SelectionTree) : Prop :=
  ∀ path slot, (t.inclusion? path slot).isSome = (u.inclusion? path slot).isSome
    ∧ ∀ σ, (t.inclusion? path slot).any (Inclusion.holds σ)
      = (u.inclusion? path slot).any (Inclusion.holds σ)

theorem Keyed.sameEntries {u : SelectionTree} (keyedT : t.Keyed) (keyedU : u.Keyed)
    (same : ∀ σ path slot, t.Holds σ path slot ↔ u.Holds σ path slot) : t.SameEntries u := by
  refine fun path slot => ⟨?_, fun σ => ?_⟩
  · rw [Bool.eq_iff_iff, keyedT.isSome_inclusion?, keyedU.isSome_inclusion?]
    simp only [same]
  · rw [Bool.eq_iff_iff, keyedT.any_inclusion?, keyedU.any_inclusion?, same]

/-- Merges a tree under two guards, unless they contradict each other. -/
def mergeUnder (t o : SelectionTree) (site : ScopePath) (inner outer : Inclusion) : SelectionTree :=
  (inner.under outer).elim t (t.mergeTree o site)

theorem holds_mergeUnder (t o : SelectionTree) (site : ScopePath) (inner outer : Inclusion)
    (path : ScopePath) (slot : Slot) :
    (t.mergeUnder o site inner outer).Holds σ path slot
      ↔ t.Holds σ path slot
        ∨ (∃ below, (site.concat below == path) = true ∧ o.Holds σ below slot)
          ∧ inner.holds σ = true ∧ outer.holds σ = true := by
  have both := Inclusion.any_under (σ := σ) inner outer
  rw [← Bool.and_eq_true, ← both, mergeUnder]
  cases inner.under outer with
  | none => simp
  | some guard => rw [Option.elim_some, holds_mergeTree, Option.any_some]

theorem Keyed.mergeUnder (h : t.Keyed) (o : SelectionTree) (site : ScopePath)
    (inner outer : Inclusion) : (t.mergeUnder o site inner outer).Keyed := by
  unfold SelectionTree.mergeUnder
  cases inner.under outer with
  | none => exact h
  | some guard => exact h.mergeTree o site guard

/-- What is below a site that is below another is below both. -/
theorem exists_below_below {outer inner : ScopePath} {P : ScopePath → Prop} :
    (∃ below, (outer.concat below == path) = true
        ∧ ∃ deeper, (inner.concat deeper == below) = true ∧ P deeper)
      ↔ ∃ deeper, ((outer.concat inner).concat deeper == path) = true ∧ P deeper := by
  constructor
  · rintro ⟨below, at_, deeper, atB, held⟩
    refine ⟨deeper, ?_, held⟩
    rw [ScopePath.concat_assoc]
    exact BEq.trans (ScopePath.concat_congr (BEq.refl outer) atB) at_
  · rintro ⟨deeper, at_, held⟩
    rw [ScopePath.concat_assoc] at at_
    exact ⟨inner.concat deeper, at_, deeper, BEq.refl _, held⟩

/-- A tree that something was merged into is merged as first the tree is and then what was merged into
it, below both sites and under both guards. -/
theorem holds_mergeTree_mergeTree (t o o₂ : SelectionTree) (site site₂ : ScopePath)
    (guard guard₂ : Inclusion) (path : ScopePath) (slot : Slot) :
    (t.mergeTree (o.mergeTree o₂ site₂ guard₂) site guard).Holds σ path slot
      ↔ ((t.mergeTree o site guard).mergeUnder o₂ (site.concat site₂) guard₂ guard).Holds σ path slot := by
  rw [holds_mergeUnder, holds_mergeTree, holds_mergeTree, ← exists_below_below, or_assoc]
  refine or_congr_right ?_
  simp only [holds_mergeTree, and_or_left, exists_or, or_and_right]
  refine or_congr_right ?_
  constructor
  · rintro ⟨⟨below, at_, deeper, guarded⟩, outer⟩
    exact ⟨⟨below, at_, deeper⟩, guarded, outer⟩
  · rintro ⟨⟨below, at_, deeper⟩, guarded, outer⟩
    exact ⟨⟨below, at_, deeper, guarded⟩, outer⟩

end SelectionTree

/-- Merging a tree below a site and under a guard adds its entries there as far as they can be included,
and leaves everything else as it was.  Merging what another tree was merged into comes to merging the two
one after the other, the second below both sites and under both guards. -/
theorem merging_adds_below_the_site {t o : SelectionTree} (keyedT : t.Keyed) (keyedO : o.Keyed)
    (site : ScopePath) (guard : Inclusion) :
    SelectionTree.MergedBelow t o site guard (t.mergeTree o site guard)
      ∧ ∀ o₂ site₂ guard₂, SelectionTree.SameEntries
        (t.mergeTree (o.mergeTree o₂ site₂ guard₂) site guard)
        ((t.mergeTree o site guard).mergeUnder o₂ (site.concat site₂) guard₂ guard) := by
  refine ⟨keyedT.mergedBelow keyedO site guard, fun o₂ site₂ guard₂ => ?_⟩
  refine (keyedT.mergeTree _ site guard).sameEntries
    ((keyedT.mergeTree o site guard).mergeUnder o₂ _ guard₂ guard) fun σ path slot => ?_
  exact SelectionTree.holds_mergeTree_mergeTree t o o₂ site site₂ guard guard₂ path slot

/-- The height of a human if `$a`, merged under `$b` into the name of a character. -/
theorem height_is_merged_below_human :
    let given : Name → Inclusion := fun flag =>
      .when (.single ⟨[⟨flag, false⟩], List.cons_ne_nil _ _, List.nodup_singleton flag⟩)
    let human : ScopePath := ⟨[⟨"Human", none⟩]⟩
    let name := (SelectionTree.empty (.root "Character")).insertField .root
      ⟨"name", "name", .named "String", .always⟩
    let height := (SelectionTree.empty (.root "Human")).insertField .root
      ⟨"height", "height", .named "Float", given "a"⟩
    ((name.mergeTree height human (given "b")).inclusion? human (.field "height")).isSome = true := by
  intro given human name height
  have keyedName : name.Keyed := (SelectionTree.keyed_empty _).insertField _ _
  have keyedHeight : height.Keyed := (SelectionTree.keyed_empty _).insertField _ _
  have merged := merging_adds_below_the_site keyedName keyedHeight human (given "b")
  exact (merged.1.present human _).mpr
    (Or.inr ⟨.root, by decide, given "a", by rfl, fun _ => true, rfl, rfl⟩)

end SelectionGraph
