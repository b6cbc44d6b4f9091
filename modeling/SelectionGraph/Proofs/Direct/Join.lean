import SelectionGraph.Proofs.Direct.Merging
import SelectionGraph.Proofs.Entity.Unchanged
import SelectionGraph.Proofs.Ordered.Join

/-!
# Join — direct selections are put together in any grouping

Merging direct selections comes to putting together three keyed lists, and the sets below their
entries.  It is associative, and so is whether it succeeds: a third set may be merged into the
second first.  The errors are left out, since the grouping may change which of several is found
first.

* `Inclusion.merge_grouped`        — inclusions may be merged in any grouping, with equal orders;
* `DirectSelections.join`          — what merging succeeds with;
* `join_eq`                        — it puts together fields, inline fragments and spreads;
* `DirectSelections.Keyed`         — keys do not repeat, at any depth;
* `join_grouped`                   — merging may be grouped either way;
* `Field.alone` and so on          — sets of one selection, and what adding it comes to.
-/

namespace SelectionGraph

/-! ## Inclusions -/

namespace Disjunction

variable {d e f : Disjunction}

theorem union_insert (d e : Disjunction) (c : Conjunction) :
    d.union (e.insert c) = (d.union e).insert c := by
  unfold insert
  split
  · rename_i held
    split
    · rfl
    · rename_i absent
      exact absurd (contains_union.mpr (Or.inr held)) absent
  · change (e.members ++ [c]).foldl insert d = _
    rw [List.foldl_append]
    rfl

/-- Disjunctions may be united in any grouping, and have their members in the same order then. -/
theorem union_grouped (d e f : Disjunction) : (d.union e).union f = d.union (e.union f) := by
  change f.members.foldl insert (d.union e) = d.union (f.members.foldl insert e)
  induction f.members generalizing e with
  | nil => rfl
  | cons c rest ih => rw [List.foldl_cons, List.foldl_cons, ← union_insert, ih]

end Disjunction

namespace Inclusion

theorem merge_grouped (i j k : Inclusion) : (i.merge j).merge k = i.merge (j.merge k) := by
  cases i <;> cases j <;> cases k <;> try rfl
  exact congrArg when (Disjunction.union_grouped _ _ _)

/-- An inclusion is left as it is by itself. -/
theorem merge_itself (i : Inclusion) : i.merge i = i :=
  Absorbs.merge_eq ⟨id, fun _ => id⟩

end Inclusion

/-! ## What merging succeeds with -/

theorem toOption_bind {α β : Type} (r : Except BuildError α) (k : α → Except BuildError β) :
    (r >>= k).toOption = r.toOption.bind fun a => (k a).toOption := by
  cases r <;> rfl

theorem toOption_map {α β : Type} (r : Except BuildError α) (f : α → β) :
    (r.map f).toOption = r.toOption.map f := by
  cases r <;> rfl

/-- Keys of inline fragments are equal when their scopes are, and their deferrals. -/
instance : EquivBEq (Option Scope × Deferral) where
  rfl := Bool.and_eq_true_iff.mpr ⟨BEq.rfl, BEq.rfl⟩
  symm h := by
    obtain ⟨scope, deferral⟩ := Bool.and_eq_true_iff.mp h
    exact Bool.and_eq_true_iff.mpr ⟨Ordered.option_symm scope, BEq.symm deferral⟩
  trans h h' := by
    obtain ⟨scope, deferral⟩ := Bool.and_eq_true_iff.mp h
    obtain ⟨scope', deferral'⟩ := Bool.and_eq_true_iff.mp h'
    exact Bool.and_eq_true_iff.mpr ⟨Ordered.option_trans scope scope', BEq.trans deferral deferral'⟩

/-- The set that merging comes to, if it succeeds. -/
def DirectSelections.join (d e : DirectSelections) : Option DirectSelections :=
  (d.merge e).toOption

/-- A field goes into the one of its key. -/
def Field.combine : Field → Field → Option Field
  | .scalar held, .scalar f =>
      some (.scalar { held with inclusion := held.inclusion.merge f.inclusion })
  | .entity held, .entity f =>
      if held.entity == f.entity then
        (held.selectionSet.direct.join f.selectionSet.direct).map fun direct =>
          .entity { held with
            inclusion := held.inclusion.merge f.inclusion
            selectionSet := { held.selectionSet with direct } }
      else none
  | _, _ => none

/-- An inline fragment goes into the one of its key. -/
def InlineSpread.combine (held s : InlineSpread) : Option InlineSpread :=
  (held.selectionSet.direct.join s.selectionSet.direct).map fun direct =>
    { held with selectionSet := { held.selectionSet with direct } }

/-- A spread goes into the one of its key. -/
def NamedSpread.combine (held s : NamedSpread) : Option NamedSpread :=
  some { held with inclusion := held.inclusion.merge s.inclusion }

/-- Fields of one response key are combined. -/
abbrev Field.joinAll : List Field → List Field → Option (List Field) :=
  Ordered.join responseKey combine

/-- Inline fragments of one scope and deferral are combined. -/
abbrev InlineSpread.joinAll : List InlineSpread → List InlineSpread → Option (List InlineSpread) :=
  Ordered.join key combine

/-- Spreads of one fragment and deferral are combined. -/
abbrev NamedSpread.joinAll : List NamedSpread → List NamedSpread → Option (List NamedSpread) :=
  Ordered.join key combine

namespace Field

theorem combine_same {held f : EntityField} (same : held.entity = f.entity) :
    (entity held).combine (.entity f)
      = (held.selectionSet.direct.join f.selectionSet.direct).map fun direct =>
          .entity { held with
            inclusion := held.inclusion.merge f.inclusion
            selectionSet := { held.selectionSet with direct } } :=
  if_pos (beq_iff_eq.mpr same)

theorem combine_apart {held f : EntityField} (apart : held.entity ≠ f.entity) :
    (entity held).combine (.entity f) = none :=
  if_neg fun same => apart (beq_iff_eq.mp same)

theorem responseKey_combine (f g h : Field) (made : f.combine g = some h) :
    h.responseKey = f.responseKey := by
  rcases f with f | f <;> rcases g with g | g
  · cases made
    rfl
  · cases made
  · cases made
  · by_cases same : f.entity = g.entity
    · rw [combine_same same] at made
      obtain ⟨direct, -, rfl⟩ := Option.map_eq_some_iff.mp made
      rfl
    · rw [combine_apart same] at made
      cases made

end Field

theorem InlineSpread.key_combine (s t u : InlineSpread) (made : s.combine t = some u) :
    u.key = s.key := by
  obtain ⟨direct, -, rfl⟩ := Option.map_eq_some_iff.mp made
  rfl

theorem NamedSpread.key_combine (s t u : NamedSpread) (made : s.combine t = some u) :
    u.key = s.key := by
  cases made
  rfl

namespace DirectSelections

/-- Fields, inline fragments and spreads that are put together, each by themselves. -/
def gather? (fields : Option (List Field)) (inlines : Option (List InlineSpread))
    (spreads : Option (List NamedSpread)) : Option DirectSelections :=
  fields.bind fun fields => inlines.bind fun inlines => spreads.map fun spreads =>
    ⟨fields, inlines, spreads⟩

theorem gather?_bind {fields : Option (List Field)} {inlines : Option (List InlineSpread)}
    {spreads : Option (List NamedSpread)} (f : List Field → Option (List Field))
    (g : List InlineSpread → Option (List InlineSpread))
    (h : List NamedSpread → Option (List NamedSpread)) :
    (gather? fields inlines spreads).bind (fun d =>
        gather? (f d.fields) (g d.inlineFragments) (h d.namedFragments))
      = gather? (fields.bind f) (inlines.bind g) (spreads.bind h) := by
  cases fields with
  | none => rfl
  | some fields =>
      cases inlines with
      | none => cases e : f fields <;> simp [gather?, e]
      | some inlines =>
          cases spreads with
          | none => cases e : f fields <;> cases e' : g inlines <;> simp [gather?, e, e']
          | some spreads => rfl

theorem gather?_eq_some {fields : Option (List Field)} {inlines : Option (List InlineSpread)}
    {spreads : Option (List NamedSpread)} {d : DirectSelections} :
    gather? fields inlines spreads = some d
      ↔ fields = some d.fields ∧ inlines = some d.inlineFragments
        ∧ spreads = some d.namedFragments := by
  obtain ⟨fs, is, ss⟩ := d
  cases fields <;> cases inlines <;> cases spreads <;> simp [gather?]

/-! ### Lists -/

theorem putField_eq {new : Field} {key : Name} (keyed : new.responseKey = key)
    (d : DirectSelections) : d.putField new
      = ⟨Ordered.upsert (fun g => g.responseKey == key) (fun _ => new) new d.fields,
          d.inlineFragments, d.namedFragments⟩ := by
  subst keyed
  rfl

theorem putInline_eq {new s : InlineSpread} (keyed : (new.key == s.key) = true)
    (d : DirectSelections) : d.putInline new
      = ⟨d.fields, Ordered.upsert (fun t => t.key == s.key) (fun _ => new) new d.inlineFragments,
          d.namedFragments⟩ := by
  rw [putInline, InlineSpread.sought_eq keyed]

theorem addScalar_toOption (d : DirectSelections) (f : ScalarField) : (d.addScalar f).toOption
    = (Ordered.put Field.responseKey Field.combine (.scalar f) d.fields).map fun fields =>
        { d with fields } := by
  have sought : d.fields.find? (fun g => g.responseKey == (Field.scalar f).responseKey)
      = d.field? f.responseKey := rfl
  rw [addScalar, Ordered.put_eq, sought]
  cases found : d.field? f.responseKey with
  | none => rfl
  | some held =>
      have key : held.responseKey = f.responseKey := by simpa using List.find?_some found
      rcases held with held | held
      · have key' : (Field.scalar { held with
            inclusion := held.inclusion.merge f.inclusion }).responseKey = f.responseKey := key
        exact congrArg some (putField_eq key' d)
      · rfl

/-- The first of several fields goes in, and then the others. -/
theorem mergeFields_cons (d : DirectSelections) (f : Field) (rest : List Field) :
    (d.mergeFields (f :: rest)).toOption
      = (Ordered.put Field.responseKey Field.combine f d.fields).bind fun fields =>
          (mergeFields { d with fields } rest).toOption := by
  rcases f with f | ⟨id, responseKey, type, node, inclusion, ⟨typeInfo, direct⟩⟩
  · rw [mergeFields, toOption_bind, addScalar_toOption, Option.bind_map]
    rfl
  · let e : EntityField := ⟨id, responseKey, type, node, inclusion, ⟨typeInfo, direct⟩⟩
    have sought : d.fields.find? (fun g => g.responseKey == (Field.entity e).responseKey)
        = d.field? responseKey := rfl
    rw [mergeFields, Ordered.put_eq, sought]
    cases found : d.field? responseKey with
    | none => rfl
    | some held =>
        have key : held.responseKey = responseKey := by simpa using List.find?_some found
        rcases held with held | held
        · rfl
        · dsimp only
          by_cases same : (held.entity == typeInfo.entity) = true
          · have same' : held.entity = e.entity := beq_iff_eq.mp same
            rw [if_pos same, Field.combine_same same', toOption_bind, join, Option.map_map,
              Option.bind_map]
            refine Option.bind_congr fun below _ => ?_
            have key' : (Field.entity { held with
                inclusion := held.inclusion.merge inclusion
                selectionSet := { held.selectionSet with direct := below } }).responseKey
              = responseKey := key
            exact congrArg (fun d => (mergeFields d rest).toOption) (putField_eq key' d)
          · have apart : held.entity ≠ e.entity := fun same' => same (beq_iff_eq.mpr same')
            rw [if_neg same, Field.combine_apart apart]
            rfl

theorem mergeInlines_cons (d : DirectSelections) (s : InlineSpread) (rest : List InlineSpread) :
    (d.mergeInlines (s :: rest)).toOption
      = (Ordered.put InlineSpread.key InlineSpread.combine s d.inlineFragments).bind fun inlines =>
          (mergeInlines { d with inlineFragments := inlines } rest).toOption := by
  obtain ⟨⟨typeInfo, direct⟩, deferral⟩ := s
  rw [mergeInlines, Ordered.put_eq]
  dsimp only
  cases found : d.inlineFragments.find? fun t =>
      t.key == (InlineSpread.mk ⟨typeInfo, direct⟩ deferral).key with
  | none => rfl
  | some held =>
      dsimp only [InlineSpread.combine]
      rw [toOption_bind, join, Option.map_map, Option.bind_map]
      refine Option.bind_congr fun below _ => ?_
      let s : InlineSpread := ⟨⟨typeInfo, direct⟩, deferral⟩
      let new : InlineSpread :=
        { held with selectionSet := { held.selectionSet with direct := below } }
      have wanted : (held.key == s.key) = true :=
        @List.find?_some _ (fun t : InlineSpread => t.key == s.key) _ _ found
      have key : (new.key == s.key) = true := wanted
      exact congrArg (fun d => (mergeInlines d rest).toOption) (putInline_eq key d)

/-- Fields are put in one after the other. -/
theorem mergeFields_toOption (fields : List Field) (d : DirectSelections) :
    (d.mergeFields fields).toOption
      = (Field.joinAll d.fields fields).map fun fields => { d with fields } := by
  induction fields generalizing d with
  | nil =>
      cases d
      rw [mergeFields]
      rfl
  | cons f rest ih =>
      rw [mergeFields_cons, Field.joinAll, Ordered.join, Option.map_bind]
      exact Option.bind_congr fun fields _ => ih _

theorem mergeInlines_toOption (inlines : List InlineSpread) (d : DirectSelections) :
    (d.mergeInlines inlines).toOption
      = (InlineSpread.joinAll d.inlineFragments inlines).map
          fun inlines => { d with inlineFragments := inlines } := by
  induction inlines generalizing d with
  | nil =>
      cases d
      rw [mergeInlines]
      rfl
  | cons s rest ih =>
      rw [mergeInlines_cons, InlineSpread.joinAll, Ordered.join, Option.map_bind]
      exact Option.bind_congr fun inlines _ => ih _

theorem foldl_addSpread (spreads : List NamedSpread) (d : DirectSelections) :
    some (spreads.foldl addSpread d)
      = (NamedSpread.joinAll d.namedFragments spreads).map
          fun spreads => { d with namedFragments := spreads } := by
  induction spreads generalizing d with
  | nil => cases d; rfl
  | cons s rest ih =>
      have total : ∀ s t : NamedSpread, s.combine t
          = some { s with inclusion := s.inclusion.merge t.inclusion } := fun _ _ => rfl
      rw [List.foldl_cons, ih, NamedSpread.joinAll, Ordered.join, Ordered.put_total total]
      rfl

/-- Merging puts together fields, inline fragments and spreads, each by themselves. -/
theorem join_eq (d e : DirectSelections) : d.join e
    = gather? (Field.joinAll d.fields e.fields)
        (InlineSpread.joinAll d.inlineFragments e.inlineFragments)
        (NamedSpread.joinAll d.namedFragments e.namedFragments) := by
  obtain ⟨fields, inlines, spreads⟩ := e
  rw [join, merge, toOption_bind, mergeFields_toOption, Option.bind_map]
  refine Option.bind_congr fun fields' _ => ?_
  change ((mergeInlines _ inlines) >>= _).toOption = _
  rw [toOption_bind, mergeInlines_toOption, Option.bind_map]
  refine Option.bind_congr fun inlines' _ => ?_
  exact foldl_addSpread spreads _

/-! ### Keys -/

/-- Keys do not repeat, at any depth. -/
inductive Keyed : DirectSelections → Prop
  | intro {d : DirectSelections} (fields : Ordered.Apart Field.responseKey d.fields)
      (inlines : Ordered.Apart InlineSpread.key d.inlineFragments)
      (spreads : Ordered.Apart NamedSpread.key d.namedFragments)
      (belowFields : ∀ e, .entity e ∈ d.fields → Keyed e.selectionSet.direct)
      (belowInlines : ∀ s ∈ d.inlineFragments, Keyed s.selectionSet.direct) : Keyed d

end DirectSelections

/-- What is below a field is keyed. -/
def Field.Keyed (f : Field) : Prop :=
  ∀ e, f = .entity e → e.selectionSet.direct.Keyed

/-- What is below an inline fragment is keyed. -/
def InlineSpread.Keyed (s : InlineSpread) : Prop :=
  s.selectionSet.direct.Keyed

namespace DirectSelections

theorem keyed_empty : empty.Keyed := by
  refine .intro .nil .nil .nil ?_ ?_ <;> simp [empty]

theorem Keyed.belowFields {d : DirectSelections} (h : d.Keyed) : ∀ f ∈ d.fields, f.Keyed := by
  obtain ⟨-, -, -, belowFields, -⟩ := h
  rintro _ mem e rfl
  exact belowFields e mem

theorem Keyed.belowInlines {d : DirectSelections} (h : d.Keyed) :
    ∀ s ∈ d.inlineFragments, s.Keyed := by
  obtain ⟨-, -, -, -, belowInlines⟩ := h
  exact belowInlines

end DirectSelections

/-- Combining a field keeps fields keyed, if merging what is below it does. -/
theorem Field.Keyed.combine {f g h : Field} (keyed : f.Keyed) (below : ∀ e, g = .entity e →
      ∀ d r : DirectSelections, d.Keyed → d.join e.selectionSet.direct = some r → r.Keyed)
    (made : f.combine g = some h) : h.Keyed := by
  rintro e rfl
  rcases f with f | f <;> rcases g with g | g
  · cases made
  · cases made
  · cases made
  · by_cases same : f.entity = g.entity
    · rw [combine_same same] at made
      obtain ⟨direct, joined, made⟩ := Option.map_eq_some_iff.mp made
      cases made
      exact below g rfl _ _ (keyed f rfl) joined
    · rw [combine_apart same] at made
      cases made

theorem InlineSpread.Keyed.combine {s t u : InlineSpread} (keyed : s.Keyed)
    (below : ∀ d r : DirectSelections, d.Keyed → d.join t.selectionSet.direct = some r → r.Keyed)
    (made : s.combine t = some u) : u.Keyed := by
  obtain ⟨direct, joined, rfl⟩ := Option.map_eq_some_iff.mp made
  exact below _ _ keyed joined

namespace DirectSelections

/-- What merging comes to is keyed.  The induction is on the set that is added. -/
theorem Keyed.join {d e r : DirectSelections} (keyed : d.Keyed) (added : e.Keyed)
    (h : d.join e = some r) : r.Keyed := by
  induction added generalizing d r with
  | @intro e _ _ _ belowFields belowInlines ihFields ihInlines =>
      obtain ⟨fields, inlines, spreads⟩ := gather?_eq_some.mp ((join_eq d e).symm.trans h)
      have allFields : ∀ f ∈ r.fields, f.Keyed := by
        refine Ordered.forall_join keyed.belowFields (fun f mem => ⟨?_, ?_⟩) fields
        · rintro g rfl
          exact belowFields g mem
        · intro a c keyedA made
          exact keyedA.combine (fun g same _ _ => ihFields g (same ▸ mem)) made
      have allInlines : ∀ s ∈ r.inlineFragments, s.Keyed := by
        refine Ordered.forall_join keyed.belowInlines ?_ inlines
        refine fun s mem => ⟨belowInlines s mem, ?_⟩
        intro a c keyedA made
        exact keyedA.combine (fun _ _ => ihInlines s mem) made
      obtain ⟨apartF, apartI, apartS, -, -⟩ := keyed
      exact .intro (apartF.join Field.responseKey_combine fields)
        (apartI.join InlineSpread.key_combine inlines) (apartS.join NamedSpread.key_combine spreads)
        (fun g mem => allFields _ mem g rfl) allInlines

end DirectSelections

/-! ## Grouping -/

/-- Fields that select on entities may be combined in either grouping, if what is below them may be
merged so: they are all of one entity, or one of the combinations fails both times. -/
theorem Field.combine_entities_grouped {x y z : EntityField}
    (below : ∀ d : DirectSelections, (d.join y.selectionSet.direct).bind (·.join z.selectionSet.direct)
      = (y.selectionSet.direct.join z.selectionSet.direct).bind d.join) :
    ((entity x).combine (.entity y)).bind (·.combine (.entity z))
      = ((entity y).combine (.entity z)).bind (entity x).combine := by
  by_cases xy : x.entity = y.entity <;> by_cases yz : y.entity = z.entity
  · have left : ((entity x).combine (.entity y)).bind (·.combine (.entity z))
        = ((x.selectionSet.direct.join y.selectionSet.direct).bind
            (·.join z.selectionSet.direct)).map fun direct => .entity { x with
              inclusion := (x.inclusion.merge y.inclusion).merge z.inclusion
              selectionSet := { x.selectionSet with direct } } := by
      rw [combine_same xy, Option.bind_map, Option.map_bind]
      exact Option.bind_congr fun direct _ => combine_same (xy.trans yz)
    have right : ((entity y).combine (.entity z)).bind (entity x).combine
        = ((y.selectionSet.direct.join z.selectionSet.direct).bind
            x.selectionSet.direct.join).map fun direct => .entity { x with
              inclusion := x.inclusion.merge (y.inclusion.merge z.inclusion)
              selectionSet := { x.selectionSet with direct } } := by
      rw [combine_same yz, Option.bind_map, Option.map_bind]
      exact Option.bind_congr fun direct _ => combine_same xy
    rw [left, right, below, Inclusion.merge_grouped]
  · have xz : x.entity ≠ z.entity := fun same => yz (xy.symm.trans same)
    rw [combine_same xy, combine_apart yz, Option.bind_map]
    cases x.selectionSet.direct.join y.selectionSet.direct with
    | none => rfl
    | some direct => exact combine_apart xz
  · rw [combine_apart xy, combine_same yz, Option.bind_map]
    cases y.selectionSet.direct.join z.selectionSet.direct with
    | none => rfl
    | some direct => exact Eq.symm (if_neg fun same => xy (beq_iff_eq.mp same))
  · rw [combine_apart xy, combine_apart yz]
    rfl

/-- A field may be combined with the second of two others first, if the sets below may be merged
so. -/
theorem Field.combine_grouped {x y z : Field} (below : ∀ e f, y = .entity e → z = .entity f →
      ∀ d : DirectSelections, (d.join e.selectionSet.direct).bind (·.join f.selectionSet.direct)
        = (e.selectionSet.direct.join f.selectionSet.direct).bind d.join) :
    (x.combine y).bind (·.combine z) = (y.combine z).bind x.combine := by
  have mixed : ∀ e e' f, ((entity e).combine (.entity e')).bind (·.combine (.scalar f)) = none := by
    intro e e' f
    by_cases same : e.entity = e'.entity
    · rw [combine_same same, Option.bind_map]
      cases e.selectionSet.direct.join e'.selectionSet.direct <;> rfl
    · rw [combine_apart same]
      rfl
  have mixed' : ∀ f e e', ((entity e).combine (.entity e')).bind (combine (.scalar f)) = none := by
    intro f e e'
    by_cases same : e.entity = e'.entity
    · rw [combine_same same, Option.bind_map]
      cases e.selectionSet.direct.join e'.selectionSet.direct <;> rfl
    · rw [combine_apart same]
      rfl
  rcases y with y | y <;> rcases z with z | z
  · rcases x with x | x
    · refine congrArg (fun i => some (Field.scalar { x with inclusion := i })) ?_
      exact Inclusion.merge_grouped _ _ _
    · rfl
  · rcases x with x | x <;> rfl
  · rcases x with x | x
    · rfl
    · exact mixed x y z
  · rcases x with x | x
    · exact (mixed' x y z).symm
    · exact combine_entities_grouped (below y z rfl rfl)

theorem InlineSpread.combine_grouped {x y z : InlineSpread} (below : ∀ d : DirectSelections,
      (d.join y.selectionSet.direct).bind (·.join z.selectionSet.direct)
        = (y.selectionSet.direct.join z.selectionSet.direct).bind d.join) :
    (x.combine y).bind (·.combine z) = (y.combine z).bind x.combine := by
  have left : (x.combine y).bind (·.combine z)
      = ((x.selectionSet.direct.join y.selectionSet.direct).bind
          (·.join z.selectionSet.direct)).map fun direct =>
            { x with selectionSet := { x.selectionSet with direct } } := by
    rw [combine, Option.bind_map, Option.map_bind]
    rfl
  have right : (y.combine z).bind x.combine
      = ((y.selectionSet.direct.join z.selectionSet.direct).bind
          x.selectionSet.direct.join).map fun direct =>
            { x with selectionSet := { x.selectionSet with direct } } := by
    rw [combine, Option.bind_map, Option.map_bind]
    rfl
  rw [left, right, below]

theorem NamedSpread.combine_grouped (x y z : NamedSpread) :
    (x.combine y).bind (·.combine z) = (y.combine z).bind x.combine :=
  congrArg (fun i => some ({ x with inclusion := i } : NamedSpread))
    (Inclusion.merge_grouped x.inclusion y.inclusion z.inclusion)

namespace DirectSelections

/-- Merging may be grouped either way: it succeeds in one grouping exactly if it does in the other,
and comes to the same set then, in the same order.  The induction is on the set that is merged in
last. -/
theorem join_grouped {x y z : DirectSelections} (keyed : y.Keyed) (last : z.Keyed) :
    (x.join y).bind (·.join z) = (y.join z).bind x.join := by
  induction last generalizing x y with
  | @intro z _ _ _ belowFields belowInlines ihFields ihInlines =>
      obtain ⟨apartFields, apartInlines, apartSpreads, -, -⟩ := id keyed
      have fields : (Field.joinAll x.fields y.fields).bind (Field.joinAll · z.fields)
          = (Field.joinAll y.fields z.fields).bind (Field.joinAll x.fields) := by
        refine Ordered.join_assoc Field.responseKey_combine apartFields keyed.belowFields ?_
        refine fun f mem => ⟨?_, fun g keyedG => ⟨fun h made => ?_, fun a => ?_⟩⟩
        · rintro e rfl
          exact belowFields e mem
        · exact keyedG.combine (fun e same _ _ at_ => at_.join (belowFields e (same ▸ mem))) made
        · refine Field.combine_grouped fun e e' ofG ofF d => ?_
          exact ihFields e' (ofF ▸ mem) (keyedG e ofG)
      have inlines : (InlineSpread.joinAll x.inlineFragments y.inlineFragments).bind
            (InlineSpread.joinAll · z.inlineFragments)
          = (InlineSpread.joinAll y.inlineFragments z.inlineFragments).bind
            (InlineSpread.joinAll x.inlineFragments) := by
        refine Ordered.join_assoc InlineSpread.key_combine apartInlines keyed.belowInlines ?_
        refine fun s mem => ⟨belowInlines s mem, fun t keyedT => ⟨fun u made => ?_, fun a => ?_⟩⟩
        · exact keyedT.combine (fun _ _ at_ => at_.join (belowInlines s mem)) made
        · exact InlineSpread.combine_grouped fun d => ihInlines s mem keyedT
      have spreads := @Ordered.join_assoc _ _ _ NamedSpread.key NamedSpread.combine
        NamedSpread.key_combine _ (fun _ => True) x.namedFragments y.namedFragments z.namedFragments
        apartSpreads (fun _ _ => trivial)
        fun s _ => ⟨trivial, fun t _ => ⟨fun _ _ => trivial, fun a => a.combine_grouped t s⟩⟩
      have afterwards : (x.join y).bind (·.join z)
          = gather? ((Field.joinAll x.fields y.fields).bind (Field.joinAll · z.fields))
            ((InlineSpread.joinAll x.inlineFragments y.inlineFragments).bind
              (InlineSpread.joinAll · z.inlineFragments))
            ((NamedSpread.joinAll x.namedFragments y.namedFragments).bind
              (NamedSpread.joinAll · z.namedFragments)) := by
        rw [join_eq x y, show (·.join z) = _ from funext fun m => join_eq m z]
        exact gather?_bind (Field.joinAll · z.fields) (InlineSpread.joinAll · z.inlineFragments)
          (NamedSpread.joinAll · z.namedFragments)
      have beforehand : (y.join z).bind x.join
          = gather? ((Field.joinAll y.fields z.fields).bind (Field.joinAll x.fields))
            ((InlineSpread.joinAll y.inlineFragments z.inlineFragments).bind
              (InlineSpread.joinAll x.inlineFragments))
            ((NamedSpread.joinAll y.namedFragments z.namedFragments).bind
              (NamedSpread.joinAll x.namedFragments)) := by
        rw [join_eq y z, show x.join = _ from funext fun m => join_eq x m]
        exact gather?_bind (Field.joinAll x.fields) (InlineSpread.joinAll x.inlineFragments)
          (NamedSpread.joinAll x.namedFragments)
      rw [afterwards, beforehand, fields, inlines, spreads]

end DirectSelections

/-! ## One selection -/

/-- A set of one field. -/
def Field.alone (f : Field) : DirectSelections :=
  ⟨[f], [], []⟩

/-- A set of one inline fragment. -/
def InlineSpread.alone (s : InlineSpread) : DirectSelections :=
  ⟨[], [s], []⟩

/-- A set of one spread. -/
def NamedSpread.alone (s : NamedSpread) : DirectSelections :=
  ⟨[], [], [s]⟩

theorem Field.Keyed.alone {f : Field} (h : f.Keyed) : f.alone.Keyed := by
  refine .intro (List.pairwise_singleton _ f) .nil .nil (fun e mem => h e ?_) ?_
  · exact (List.mem_singleton.mp mem).symm
  · simp [Field.alone]

theorem InlineSpread.Keyed.alone {s : InlineSpread} (h : s.Keyed) : s.alone.Keyed := by
  refine .intro .nil (List.pairwise_singleton _ s) .nil (by simp [InlineSpread.alone]) ?_
  exact List.forall_mem_singleton.mpr h

theorem NamedSpread.keyed_alone (s : NamedSpread) : s.alone.Keyed := by
  refine .intro .nil .nil (List.pairwise_singleton _ s) ?_ ?_ <;> simp [alone]

namespace DirectSelections

/-- Nothing is added by the empty set. -/
theorem join_empty (d : DirectSelections) : d.join empty = some d := by
  cases d
  rw [join_eq]
  rfl

/-- Adding a field is merging the set of it. -/
theorem addField_toOption (d : DirectSelections) (f : Field) :
    (d.addField f).toOption = d.join f.alone := by
  rw [addField, mergeFields_toOption, join_eq, show f.alone.fields = [f] from rfl]
  cases Field.joinAll d.fields [f] <;> rfl

/-- Adding an inline fragment is merging the set of it. -/
theorem addInline_toOption (d : DirectSelections) (s : InlineSpread) :
    (d.addInline s).toOption = d.join s.alone := by
  rw [addInline, mergeInlines_toOption, join_eq, show s.alone.inlineFragments = [s] from rfl]
  cases InlineSpread.joinAll d.inlineFragments [s] <;> rfl

/-- Adding a spread is merging the set of it. -/
theorem some_addSpread (d : DirectSelections) (s : NamedSpread) :
    some (d.addSpread s) = d.join s.alone := by
  rw [show d.addSpread s = [s].foldl addSpread d from rfl, foldl_addSpread, join_eq]
  rfl

/-- Two fields of one response key come to one. -/
theorem join_oneField {f g : Field} (same : f.responseKey = g.responseKey) :
    f.alone.join g.alone = (f.combine g).map Field.alone := by
  have put : Field.joinAll [f] [g] = (f.combine g).map fun h => [h] := by
    rw [Field.joinAll, Ordered.join, Ordered.put_of_eq (beq_iff_eq.mpr same), Option.bind_map]
    cases f.combine g <;> rfl
  rw [join_eq, show f.alone.fields = [f] from rfl, show g.alone.fields = [g] from rfl, put]
  cases f.combine g <;> rfl

/-- Two inline fragments of one key come to one. -/
theorem join_oneInline {s t : InlineSpread} (same : (s.key == t.key) = true) :
    s.alone.join t.alone = (s.combine t).map InlineSpread.alone := by
  have put : InlineSpread.joinAll [s] [t] = (s.combine t).map fun u => [u] := by
    rw [InlineSpread.joinAll, Ordered.join, Ordered.put_of_eq same, Option.bind_map]
    cases s.combine t <;> rfl
  rw [join_eq, show s.alone.inlineFragments = [s] from rfl,
    show t.alone.inlineFragments = [t] from rfl, put]
  cases s.combine t <;> rfl

end DirectSelections

end SelectionGraph
