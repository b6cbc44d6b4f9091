import SelectionGraph.Proofs.Direct.Join
import SelectionGraph.Proofs.Session.Steps

/-!
# Gathered — a walk adds to a set what it comes to by itself

A walk goes on with the set it is given, selection by selection.  What it comes to is that set, with
the selections merged into it that the walk comes to from nothing; it succeeds exactly if the walk from
nothing does and the sets can be merged.

* `Walk.done`       — what a step succeeds with;
* `Walk.Gathers`    — a step adds to a set what it comes to from nothing;
* `Walk.gathers_all` — walks do.
-/

namespace SelectionGraph
namespace Walk

variable {α β : Type} {d d' : Draft} {p p' : Progress}

/-! ## Success -/

/-- What a step of a walk succeeds with, if it does: its result, the draft and the progress after
it. -/
def done (w : Walk α) (d : Draft) (p : Progress) : Option (α × Draft × Progress) :=
  match w.result d p with
  | (.ok (a, d'), p') => some (a, d', p')
  | (.error _, _) => none

theorem done_eq_some {w : Walk α} {a : α} :
    w.done d p = some (a, d', p') ↔ w.Gives d p a d' p' := by
  unfold done Gives
  rcases w.result d p with ⟨e | ⟨b, d₁⟩, p₁⟩
  · simp
  · simp [and_assoc]

theorem done_bind (w : Walk α) (k : α → Walk β) (d : Draft) (p : Progress) :
    (w >>= k).done d p = (w.done d p).bind fun r => (k r.1).done r.2.1 r.2.2 := by
  unfold done
  rw [result_bind]
  rcases w.result d p with ⟨e | ⟨a, d₁⟩, p₁⟩ <;> rfl

theorem done_pure (a : α) (d : Draft) (p : Progress) : (pure a : Walk α).done d p = some (a, d, p) :=
  rfl

theorem done_ofExcept (r : Except BuildError α) (d : Draft) (p : Progress) :
    (ofExcept r).done d p = r.toOption.map fun a => (a, d, p) := by
  cases r <;> rfl

/-! ## Steps that add to a set -/

/-- A step adds to a set what it comes to from nothing. -/
structure Gathers (w : DirectSelections → Walk DirectSelections) : Prop where
  joins : ∀ direct d p, (w direct).done d p
    = ((w .empty).done d p).bind fun r => (direct.join r.1).map fun joined => (joined, r.2)
  keyed : ∀ d p r, (w .empty).done d p = some r → r.1.Keyed

namespace Gathers

variable {w w' : DirectSelections → Walk DirectSelections}

/-- Nothing is added. -/
theorem nothing : Gathers pure where
  joins direct d p := by
    rw [done_pure, done_pure, Option.bind_some, DirectSelections.join_empty]
    rfl
  keyed d p r h := by
    rw [done_pure, Option.some.injEq] at h
    exact h ▸ DirectSelections.keyed_empty

/-- A set is merged in that is found without looking at the one before. -/
theorem merging {add : DirectSelections → Except BuildError DirectSelections} {e : DirectSelections}
    (keyed : e.Keyed) (adds : ∀ direct, (add direct).toOption = direct.join e) :
    Gathers fun direct => ofExcept (add direct) where
  joins direct d p := by
    have grouped := @DirectSelections.join_grouped direct _ _ DirectSelections.keyed_empty keyed
    rw [DirectSelections.join_empty, Option.bind_some] at grouped
    rw [done_ofExcept, done_ofExcept, adds, adds, grouped, Option.map_bind, Option.bind_map]
    rfl
  keyed d p r h := by
    rw [done_ofExcept, adds, Option.map_eq_some_iff] at h
    obtain ⟨joined, made, rfl⟩ := h
    exact DirectSelections.keyed_empty.join keyed made

/-- A step before that does not look at the set. -/
theorem after {first : Walk α} {k : DirectSelections → α → Walk DirectSelections} (P : α → Prop)
    (gives : ∀ d p r, first.done d p = some r → P r.1)
    (then_ : ∀ a, P a → Gathers fun direct => k direct a) :
    Gathers fun direct => first >>= k direct where
  joins direct d p := by
    rw [done_bind, done_bind, Option.bind_assoc]
    refine Option.bind_congr fun r made => ?_
    exact (then_ r.1 (gives d p r made)).joins direct r.2.1 r.2.2
  keyed d p r h := by
    rw [done_bind, Option.bind_eq_some_iff] at h
    obtain ⟨s, made, later⟩ := h
    exact (then_ s.1 (gives d p s made)).keyed _ _ _ later

/-- The same, where nothing has to be known of what the step before gives. -/
theorem under {first : Walk α} {k : DirectSelections → α → Walk DirectSelections}
    (then_ : ∀ a, Gathers fun direct => k direct a) : Gathers fun direct => first >>= k direct :=
  .after (fun _ => True) (fun _ _ _ _ => trivial) fun a _ => then_ a

/-- Two steps that add to a set, one after the other. -/
theorem both (first : Gathers w) (second : Gathers w') : Gathers fun direct => w direct >>= w' where
  joins direct d p := by
    rw [done_bind, done_bind, first.joins, Option.bind_assoc, Option.bind_assoc]
    refine Option.bind_congr fun r made => ?_
    have later : ∀ joined, (w' joined).done r.2.1 r.2.2 = _ := fun joined => second.joins joined _ _
    rw [Option.bind_map]
    change ((direct.join r.1).bind fun joined => (w' joined).done r.2.1 r.2.2) = _
    -- The second step from nothing does not depend on what the first was merged into.
    rw [funext later, later r.1, Option.bind_comm, Option.bind_assoc]
    refine Option.bind_congr fun s again => ?_
    have grouped := @DirectSelections.join_grouped direct _ _ (first.keyed d p r made)
      (second.keyed r.2.1 r.2.2 s again)
    calc ((direct.join r.1).bind fun joined => (joined.join s.1).map fun all => (all, s.2))
        = ((direct.join r.1).bind (·.join s.1)).map fun all => (all, s.2) := Option.map_bind.symm
      _ = ((r.1.join s.1).bind direct.join).map fun all => (all, s.2) := by rw [grouped]
      _ = _ := by
          rw [Option.map_bind, Option.bind_map]
          rfl
  keyed d p r h := by
    rw [done_bind, Option.bind_eq_some_iff] at h
    obtain ⟨s, made, later⟩ := h
    rw [second.joins, Option.bind_eq_some_iff] at later
    obtain ⟨t, again, later⟩ := later
    obtain ⟨joined, joins, rfl⟩ := Option.map_eq_some_iff.mp later
    exact (first.keyed _ _ _ made).join (second.keyed _ _ _ again) joins

end Gathers

/-! ## Walks -/

/-- The set of a spread as it stands in its own set: by itself, or in the scope that it opens. -/
def spreadAlone (info : TypeInfo) (s : NamedSpread) : DirectSelections :=
  match spreadScope? info s.fragment.typeCondition with
  | none => s.alone
  | some _ => InlineSpread.alone ⟨⟨s.typeInfo, s.alone⟩, .immediate⟩

theorem keyed_spreadAlone (info : TypeInfo) (s : NamedSpread) : (spreadAlone info s).Keyed := by
  unfold spreadAlone
  split
  · exact s.keyed_alone
  · exact InlineSpread.Keyed.alone s.keyed_alone

theorem addSpread_toOption (info : TypeInfo) (direct : DirectSelections) (s : NamedSpread) :
    (addSpread info direct s).toOption = direct.join (spreadAlone info s) := by
  rw [addSpread, spreadAlone]
  cases spreadScope? info s.fragment.typeCondition with
  | none => exact DirectSelections.some_addSpread direct s
  | some _ => exact DirectSelections.addInline_toOption direct ⟨⟨s.typeInfo, s.alone⟩, .immediate⟩

section Walks

variable {view : SchemaView} {lookUp : Name → Build NamedFragment}

theorem gathers_spread (info : TypeInfo) (name : Name) (directives : List Directive) :
    Gathers fun direct => spread view lookUp info direct name directives := by
  refine .under ?_
  rintro (_ | inclusion)
  · exact .nothing
  · refine .under fun deferral => .under fun fragment => .under fun _ => ?_
    refine .under fun _ => .under fun _ => .under fun _ => ?_
    exact .merging (keyed_spreadAlone info _) fun direct => addSpread_toOption info direct _

mutual

/-- So does the walk of one selection.  What is below a field or inside an inline fragment is walked
from nothing, and has no key twice. -/
theorem gathers_one (info : TypeInfo) :
    ∀ s : Selection, Gathers fun direct => one view lookUp info direct s
  | .field ⟨label, definition, arguments, directives, selections⟩ => by
      simp only [one]
      refine .under ?_
      rintro (_ | inclusion)
      · exact .nothing
      · refine .under fun _ => .under fun _ => .under ?_
        rintro (_ | _)
        · refine .merging (Field.Keyed.alone ?_) fun direct => direct.addField_toOption _
          rintro e ⟨⟩
        · refine .under fun entity => ?_
          refine .after DirectSelections.Keyed (gathers_all _ selections).keyed fun below keyed => ?_
          refine .under fun id => ?_
          refine .merging (Field.Keyed.alone ?_) fun direct => direct.addField_toOption _
          rintro e ⟨⟩
          exact keyed
  | .inlineFragment condition directives selections => by
      simp only [one]
      refine .under fun verdict => ?_
      cases verdict.scope? with
      | none => exact .nothing
      | some conditions =>
          refine .under fun deferral => .under fun _ => ?_
          split
          · exact gathers_all info selections
          · refine .after DirectSelections.Keyed (gathers_all _ selections).keyed fun below keyed => ?_
            refine .merging (InlineSpread.Keyed.alone ?_) fun direct => direct.addInline_toOption _
            exact keyed
  | .fragmentSpread name directives => by
      simp only [one]
      exact gathers_spread info name directives

/-- A walk adds to a set what it comes to from nothing. -/
theorem gathers_all (info : TypeInfo) :
    ∀ ss : List Selection, Gathers fun direct => all view lookUp info direct ss
  | [] => by
      simp only [all]
      exact .nothing
  | s :: ss => by
      simp only [all]
      exact .both (gathers_one info s) (gathers_all info ss)

end

end Walks

end Walk
end SelectionGraph
