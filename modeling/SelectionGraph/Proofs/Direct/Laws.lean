import SelectionGraph.Direct.Equality
import SelectionGraph.Proofs.Direct.Join
import SelectionGraph.Proofs.Direct.Positions

/-!
# Laws — merging direct selections is associative and idempotent

Every set that is put together by merging has its selections under keys that do not repeat, at any
depth.  Merging such a set into itself changes nothing, and three of them may be merged in either
grouping: both succeed or both fail, and they come to one set, with its selections in one order.

* `Ordered.join_self`                  — a keyed list is left as it is by itself;
* `DirectSelections.beq_eq`            — equality of sets, list by list;
* `DirectSelections.Keyed.beq_refl`    — a keyed set is equal to itself;
* `DirectSelections.Keyed.merge_self`  — and is left as it is by itself;
* `DirectSelections.Built`             — sets that are put together by merging;
* `merging_is_associative_and_idempotent` — all of it.

Only the error may depend on the grouping: the one that is met first is told.
-/

namespace SelectionGraph

/-! ## Keyed lists -/

namespace Ordered

variable {α κ : Type} [BEq κ] {key : α → κ} {combine : α → α → Option α}

/-- Putting in an entry that is there already and that is left as it is by itself. -/
theorem put_held [ReflBEq κ] {entry : α} {l : List α} (apart : Apart key l) (held : entry ∈ l)
    (idle : combine entry entry = some entry) : put key combine entry l = some l := by
  induction l with
  | nil => cases held
  | cons a rest ih =>
      obtain ⟨first, later⟩ := List.pairwise_cons.mp apart
      rcases List.mem_cons.mp held with rfl | held
      · rw [put_of_eq BEq.rfl, idle, Option.map_some]
      · -- The entry goes past `a`, which has another key.
        rw [put_of_ne (first entry held), ih later held, Option.map_some]

/-- Entries that change nothing one by one change nothing one after the other. -/
theorem join_held {xs ys : List α} (held : ∀ y ∈ ys, put key combine y xs = some xs) :
    join key combine xs ys = some xs := by
  induction ys with
  | nil => rfl
  | cons y ys ih =>
      obtain ⟨first, later⟩ := List.forall_mem_cons.mp held
      rw [join, first, Option.bind_some, ih later]

theorem join_self [ReflBEq κ] {l : List α} (apart : Apart key l)
    (idle : ∀ a ∈ l, combine a a = some a) : join key combine l l = some l :=
  join_held fun a mem => put_held apart mem (idle a mem)

/-- A list without two entries of one key has the same entries as itself. -/
theorem same_self [EquivBEq κ] {related : α → α → Bool} {l : List α} (apart : Apart key l)
    (reflexive : ∀ a ∈ l, related a a = true) : same key related l l = true :=
  same_of_covered apart apart (fun a mem => ⟨a, mem, BEq.rfl, reflexive a mem⟩)
    fun a mem => ⟨a, mem, BEq.rfl⟩

end Ordered

/-! ## Equality -/

/-- Whether two fields are equal: both of leaf type, or both selecting on an entity. -/
def Field.same : Field → Field → Bool
  | .scalar f, .scalar g => f == g
  | .entity f, .entity g => f == g
  | _, _ => false

/-- Whether two inline fragments are equal. -/
def InlineSpread.same (s t : InlineSpread) : Bool :=
  s.selectionSet == t.selectionSet && s.deferral == t.deferral

namespace DirectSelections

variable {d e : DirectSelections}

theorem sameFields_eq (fields : List Field) (e : DirectSelections) : sameFields fields e
    = fields.all fun f => (e.field? f.responseKey).any fun g => f.same g := by
  induction fields with
  | nil => rw [sameFields, List.all_nil]
  | cons f rest ih =>
      rw [List.all_cons, ← ih]
      rcases f with f | ⟨id, responseKey, type, node, inclusion, ⟨typeInfo, direct⟩⟩
      · rw [sameFields]
        change _ = ((e.field? f.responseKey).any _ && _)
        rcases e.field? f.responseKey with - | - | - <;> rfl
      · rw [sameFields]
        change _ = ((e.field? responseKey).any _ && _)
        rcases e.field? responseKey with - | - | g
        · rfl
        · rfl
        · exact congrArg (· && sameFields rest e) (Bool.and_assoc _ _ _)

theorem sameInlines_eq (inlines : List InlineSpread) (e : DirectSelections) : sameInlines inlines e
    = inlines.all fun s => (e.inlineFragments.find? fun t => t.key == s.key).any fun t =>
        s.same t := by
  induction inlines with
  | nil => rw [sameInlines, List.all_nil]
  | cons s rest ih =>
      obtain ⟨⟨typeInfo, direct⟩, deferral⟩ := s
      rw [List.all_cons, ← ih, sameInlines]
      refine congrArg (· && sameInlines rest e) ?_
      change _ = (e.inlineFragments.find? fun t => t.key == (typeInfo.scopePath.last?, deferral)).any _
      split
      · rename_i t found
        rw [found]
        exact Bool.and_right_comm _ _ _
      · rename_i none
        rw [none]
        rfl

/-- Sets are equal when their fields are, and their inline fragments and spreads. -/
theorem beq_eq (d e : DirectSelections) : (d == e)
    = (Ordered.same Field.responseKey Field.same d.fields e.fields
      && Ordered.same InlineSpread.key InlineSpread.same d.inlineFragments e.inlineFragments
      && Ordered.same NamedSpread.key (· == ·) d.namedFragments e.namedFragments) := by
  obtain ⟨fields, inlines, spreads⟩ := d
  change same _ e = _
  rw [same, sameFields_eq, sameInlines_eq]
  simp only [Ordered.same, Bool.and_assoc]
  rfl

end DirectSelections

/-! ## A set and itself -/

theorem toOption_of_ok {α β : Type} {x : Except β α} {a : α} (h : x = .ok a) :
    x.toOption = some a := by
  rw [h]
  rfl

theorem ScalarField.beq_refl (f : ScalarField) : (f == f) = true := by
  change (f.node == f.node && f.inclusion == f.inclusion) = true
  rw [BEq.rfl, BEq.rfl, Bool.and_self]

theorem NamedSpread.beq_refl (s : NamedSpread) : (s == s) = true := by
  change (s.fragment.identity == s.fragment.identity && s.typeInfo == s.typeInfo
    && s.inclusion == s.inclusion && s.deferral == s.deferral) = true
  rw [BEq.rfl, BEq.rfl, BEq.rfl, BEq.rfl]
  rfl

theorem SelectionSet.beq_refl {s : SelectionSet} (below : (s.direct == s.direct) = true) :
    (s == s) = true := by
  change (s.typeInfo == s.typeInfo && s.direct == s.direct) = true
  rw [BEq.rfl, below, Bool.and_self]

theorem Field.same_refl {f : Field} (below : ∀ e, f = .entity e →
    (e.selectionSet.direct == e.selectionSet.direct) = true) : f.same f = true := by
  rcases f with f | e
  · exact f.beq_refl
  · change (e.responseKey == e.responseKey && e.type == e.type && e.node == e.node
      && e.inclusion == e.inclusion && e.selectionSet == e.selectionSet) = true
    rw [BEq.rfl, BEq.rfl, BEq.rfl, BEq.rfl, SelectionSet.beq_refl (below e rfl)]
    rfl

theorem InlineSpread.same_refl {s : InlineSpread}
    (below : (s.selectionSet.direct == s.selectionSet.direct) = true) : s.same s = true := by
  rw [InlineSpread.same, SelectionSet.beq_refl below, BEq.rfl, Bool.and_self]

/-- A field is left as it is by itself, if what is below it is. -/
theorem Field.combine_self {f : Field} (below : ∀ e, f = .entity e →
    e.selectionSet.direct.join e.selectionSet.direct = some e.selectionSet.direct) :
    f.combine f = some f := by
  rcases f with f | ⟨id, responseKey, type, node, inclusion, ⟨typeInfo, direct⟩⟩
  · rw [combine, Inclusion.merge_itself]
  · rw [combine_same rfl, below _ rfl, Option.map_some, Inclusion.merge_itself]

theorem InlineSpread.combine_self {s : InlineSpread}
    (below : s.selectionSet.direct.join s.selectionSet.direct = some s.selectionSet.direct) :
    s.combine s = some s := by
  obtain ⟨⟨typeInfo, direct⟩, deferral⟩ := s
  rw [combine, below, Option.map_some]

theorem NamedSpread.combine_self (s : NamedSpread) : s.combine s = some s := by
  rw [combine, Inclusion.merge_itself]

namespace DirectSelections

variable {d e r : DirectSelections}

/-- A keyed set is equal to itself.  The induction is on the sets below. -/
theorem Keyed.beq_refl (keyed : d.Keyed) : (d == d) = true := by
  induction keyed with
  | intro fields inlines spreads _ _ ihFields ihInlines =>
      rw [beq_eq, Ordered.same_self fields fun f mem => ?_, Ordered.same_self inlines fun s mem => ?_,
        Ordered.same_self spreads fun s _ => s.beq_refl]
      · rfl
      · exact InlineSpread.same_refl (ihInlines s mem)
      · refine Field.same_refl ?_
        rintro e rfl
        exact ihFields e mem

theorem Keyed.join_self (keyed : d.Keyed) : d.join d = some d := by
  induction keyed with
  | intro fields inlines spreads _ _ ihFields ihInlines =>
      refine (join_eq _ _).trans (gather?_eq_some.mpr ⟨?_, ?_, ?_⟩)
      · refine Ordered.join_self fields fun f mem => Field.combine_self ?_
        rintro e rfl
        exact ihFields e mem
      · exact Ordered.join_self inlines fun s mem => InlineSpread.combine_self (ihInlines s mem)
      · exact Ordered.join_self spreads fun s _ => s.combine_self

/-- A keyed set is left as it is by itself. -/
theorem Keyed.merge_self (keyed : d.Keyed) : d.merge d = .ok d :=
  eq_ok_of_toOption keyed.join_self

/-! ## Sets that are put together -/

/-- Sets that are put together, selection by selection or set by set. -/
inductive Built : DirectSelections → Prop
  | empty : Built empty
  | addField {d r : DirectSelections} {f : Field} (held : Built d)
      (below : ∀ e, f = .entity e → Built e.selectionSet.direct) (added : d.addField f = .ok r) :
      Built r
  | addInline {d r : DirectSelections} {s : InlineSpread} (held : Built d)
      (below : Built s.selectionSet.direct) (added : d.addInline s = .ok r) : Built r
  | addSpread {d : DirectSelections} (held : Built d) (s : NamedSpread) : Built (d.addSpread s)
  | merge {d e r : DirectSelections} (held : Built d) (other : Built e) (merged : d.merge e = .ok r) :
      Built r

/-- No key of them repeats: adding a selection is merging the set of it. -/
theorem Built.keyed (built : d.Built) : d.Keyed := by
  induction built with
  | empty => exact keyed_empty
  | addField _ _ added ih ihBelow =>
      refine ih.join (Field.Keyed.alone ihBelow) ?_
      exact (addField_toOption _ _).symm.trans (toOption_of_ok added)
  | addInline _ _ added ih ihBelow =>
      refine ih.join (InlineSpread.Keyed.alone ihBelow) ?_
      exact (addInline_toOption _ _).symm.trans (toOption_of_ok added)
  | addSpread _ s ih => exact ih.join s.keyed_alone (some_addSpread _ s).symm
  | merge _ _ merged ih ihOther => exact ih.join ihOther (toOption_of_ok merged)

/-- A set of one field is put together, if what is below the field is. -/
theorem Built.alone {f : Field} (below : ∀ e, f = .entity e → Built e.selectionSet.direct) :
    f.alone.Built := by
  refine .addField .empty below (eq_ok_of_toOption ?_)
  rw [addField_toOption, join_eq]
  rfl

/-- Merging in either grouping comes to the same, if it succeeds. -/
theorem merge_grouped {x y z : DirectSelections} (keyed : y.Keyed) (last : z.Keyed) :
    (x.merge y >>= fun m => m.merge z) = .ok r ↔ (y.merge z >>= fun m => x.merge m) = .ok r := by
  have grouped : (x.merge y >>= fun m => m.merge z).toOption
      = (y.merge z >>= fun m => x.merge m).toOption := by
    rw [toOption_bind, toOption_bind]
    exact join_grouped keyed last
  constructor
  · exact fun made => eq_ok_of_toOption (grouped.symm.trans (toOption_of_ok made))
  · exact fun made => eq_ok_of_toOption (grouped.trans (toOption_of_ok made))

/-- Keyed sets come to a keyed set. -/
theorem Keyed.merge_merge {x y z : DirectSelections} (first : x.Keyed) (second : y.Keyed)
    (third : z.Keyed) (made : (x.merge y >>= fun m => m.merge z) = .ok r) : r.Keyed := by
  obtain ⟨m, merged, made⟩ := bind_eq_ok.mp made
  exact (first.join second (toOption_of_ok merged)).join third (toOption_of_ok made)

end DirectSelections

/-- Merging is associative and idempotent on sets with no key twice, at any depth, and so on all sets
that are put together by merging:
- a set that is merged into itself is left as it is;
- a second set can be merged into a first, and then a third, exactly if the third can be merged into
  the second, and then the result into the first; what they come to is one set, with its fields,
  inline fragments and spreads in one order. -/
theorem merging_is_associative_and_idempotent :
    (∀ d : DirectSelections, d.Built → d.Keyed)
    ∧ (∀ x : DirectSelections, x.Keyed → x.merge x = .ok x ∧ (x == x) = true)
    ∧ ∀ x y z : DirectSelections, x.Keyed → y.Keyed → z.Keyed →
      ((∃ r, (x.merge y >>= fun m => m.merge z) = .ok r)
        ↔ ∃ r, (y.merge z >>= fun m => x.merge m) = .ok r)
      ∧ ∀ r r', (x.merge y >>= fun m => m.merge z) = .ok r →
        (y.merge z >>= fun m => x.merge m) = .ok r' → r = r' ∧ (r == r') = true := by
  refine ⟨fun d built => built.keyed, fun x keyed => ⟨keyed.merge_self, keyed.beq_refl⟩, ?_⟩
  intro x y z first second third
  refine ⟨exists_congr fun r => DirectSelections.merge_grouped second third, ?_⟩
  intro r r' made made'
  have keyed : r.Keyed := first.merge_merge second third made
  -- What one grouping comes to the other does too, so it is the same set.
  have grouped : (x.merge y >>= fun m => m.merge z) = .ok r' :=
    (DirectSelections.merge_grouped second third).mpr made'
  cases Except.ok.inj (made.symm.trans grouped)
  exact ⟨rfl, keyed.beq_refl⟩

/-- `hero` with `name` if `$a`, with `size` if `$b`, and once more with `name` if `$b`, beside an
inline fragment.  Either grouping comes to one set, with one `hero`, that is left as it is by itself. -/
theorem three_sets_are_merged_in_either_grouping :
    let leaf : Name → DirectSelections := fun name =>
      Field.alone (.scalar ⟨⟨none, ⟨none, name, [], .named "String", []⟩, [], [], []⟩, .always⟩)
    let hero : Name → DirectSelections → DirectSelections := fun a below =>
      Field.alone (.entity ⟨⟨⟨0⟩, 1⟩, "hero", .named "Character", none,
        .when (.single ⟨[⟨a, false⟩], List.cons_ne_nil _ _, List.nodup_singleton _⟩),
        ⟨⟨⟨1⟩, "Character", .root, false⟩, below⟩⟩)
    let onDroid : InlineSpread :=
      ⟨⟨⟨⟨0⟩, "Query", ScopePath.root.append ⟨"Droid", none⟩, false⟩, leaf "size"⟩, .value true⟩
    ∃ z r : DirectSelections, (hero "b" (leaf "name")).addInline onDroid = .ok z
      ∧ ((hero "a" (leaf "name")).merge (hero "b" (leaf "size")) >>= fun m => m.merge z) = .ok r
      ∧ ((hero "b" (leaf "size")).merge z >>= fun m => (hero "a" (leaf "name")).merge m) = .ok r
      ∧ r.merge r = .ok r ∧ r.fields.map Field.responseKey = ["hero"] := by
  intro leaf hero onDroid
  obtain ⟨keyed, idempotent, associative⟩ := merging_is_associative_and_idempotent
  have leaves : ∀ name, (leaf name).Built := fun name => .alone nofun
  have heroes : ∀ a name, (hero a (leaf name)).Built := by
    refine fun a name => .alone ?_
    rintro e ⟨⟩
    exact leaves name
  obtain ⟨z, put⟩ : ∃ z, (hero "b" (leaf "name")).addInline onDroid = .ok z := ⟨_, rfl⟩
  have built : z.Built := .addInline (heroes "b" "name") (leaves "size") put
  have first := keyed _ (heroes "a" "name")
  have second := keyed _ (heroes "b" "size")
  obtain ⟨r, made, only⟩ :
      ∃ r, ((hero "a" (leaf "name")).merge (hero "b" (leaf "size")) >>= fun m => m.merge z) = .ok r
        ∧ r.fields.map Field.responseKey = ["hero"] := by
    cases put
    exact ⟨_, rfl, rfl⟩
  obtain ⟨succeeds, same⟩ := associative _ _ z first second (keyed z built)
  obtain ⟨r', made'⟩ := succeeds.mp ⟨r, made⟩
  obtain ⟨rfl, -⟩ := same r r' made made'
  have whole : r.Keyed := first.merge_merge second (keyed z built) made
  exact ⟨z, r, put, made, made', (idempotent r whole).1, only⟩

end SelectionGraph
