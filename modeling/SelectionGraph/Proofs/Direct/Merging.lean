import SelectionGraph.Direct.Merge
import SelectionGraph.Proofs.Entity.Storage

/-!
# Merging — how direct selections are put together, selection by selection

What putting selections together has done when it succeeds, as a relation: each selection that is
added is new, or goes into the one of its key.  What holds of the result is proved by one induction
on the relation, whichever selections were added.

* `Merging`             — one set goes into another, selection by selection;
* `merging_merge`       — merging does this when it succeeds;
* `merging_addField`, `merging_addInline` — so does adding one selection.
-/

namespace SelectionGraph

/-! ## Keys of inline fragments -/

namespace InlineSpread

variable {s t u : InlineSpread}

theorem key_beq_iff :
    (s.key == t.key) = true
      ↔ (s.typeInfo.scopePath.last? == t.typeInfo.scopePath.last?) = true
        ∧ s.deferral = t.deferral := by
  change (s.typeInfo.scopePath.last? == t.typeInfo.scopePath.last? && s.deferral == t.deferral)
    = true ↔ _
  rw [Bool.and_eq_true]
  exact and_congr_right fun _ => beq_iff_eq

theorem key_refl (s : InlineSpread) : (s.key == s.key) = true :=
  key_beq_iff.mpr ⟨BEq.rfl, rfl⟩

theorem key_symm (h : (s.key == t.key) = true) : (t.key == s.key) = true := by
  obtain ⟨last, deferral⟩ := key_beq_iff.mp h
  exact key_beq_iff.mpr ⟨Ordered.option_symm last, deferral.symm⟩

theorem key_trans (h : (s.key == t.key) = true) (h' : (t.key == u.key) = true) :
    (s.key == u.key) = true := by
  obtain ⟨last, deferral⟩ := key_beq_iff.mp h
  obtain ⟨last', deferral'⟩ := key_beq_iff.mp h'
  exact key_beq_iff.mpr ⟨Ordered.option_trans last last', deferral.trans deferral'⟩

/-- Equal keys look for the same inline fragment, although they need not be identical. -/
theorem sought_eq (h : (s.key == t.key) = true) :
    (fun u : InlineSpread => u.key == s.key) = fun u => u.key == t.key := by
  funext u
  rw [Bool.eq_iff_iff]
  exact ⟨fun same => key_trans same h, fun same => key_trans same (key_symm h)⟩

end InlineSpread

namespace DirectSelections

/-! ## Putting one selection -/

section Put

variable {d : DirectSelections}

/-- A property that a field has when it is put in the place of another, because the other had it or
the field that was to be added has it, is had by one of the fields before or by that one. -/
theorem exists_putField {P : Field → Prop} {new f : Field} (key : new.responseKey = f.responseKey)
    (held : ∀ g, d.field? f.responseKey = some g → (P new ↔ P g ∨ P f))
    (unheld : d.field? f.responseKey = none → new = f) :
    (∃ g ∈ (d.putField new).fields, P g) ↔ (∃ g ∈ d.fields, P g) ∨ P f := by
  refine Ordered.exists_upsert d.fields ?_ ?_
  · intro g found
    rw [key] at found
    exact held g found
  · intro none
    rw [key] at none
    rw [unheld none]

/-- So it is for inline fragments. -/
theorem exists_putInline {P : InlineSpread → Prop} {new s : InlineSpread}
    (key : (new.key == s.key) = true)
    (held : ∀ t, (d.inlineFragments.find? fun t => t.key == s.key) = some t →
      (P new ↔ P t ∨ P s))
    (unheld : (d.inlineFragments.find? fun t => t.key == s.key) = none → new = s) :
    (∃ t ∈ (d.putInline new).inlineFragments, P t) ↔ (∃ t ∈ d.inlineFragments, P t) ∨ P s := by
  refine Ordered.exists_upsert d.inlineFragments ?_ ?_
  · intro t found
    rw [InlineSpread.sought_eq key] at found
    exact held t found
  · intro none
    rw [InlineSpread.sought_eq key] at none
    rw [unheld none]

end Put

/-! ## Putting selections together -/

variable {d d₁ r : DirectSelections} {fields : List Field} {inlines : List InlineSpread}
  {spreads : List NamedSpread}

/-- The selections of a set go into `d` one after the other, fields first, then inline fragments,
then spreads. -/
inductive Merging : DirectSelections → DirectSelections → DirectSelections → Prop
  | done {d : DirectSelections} : Merging d ⟨[], [], []⟩ d
  | newField {d r : DirectSelections} {f : Field} {fields : List Field}
      {inlines : List InlineSpread} {spreads : List NamedSpread}
      (new : d.field? f.responseKey = none)
      (rest : Merging (d.putField f) ⟨fields, inlines, spreads⟩ r) :
      Merging d ⟨f :: fields, inlines, spreads⟩ r
  | heldScalar {d r : DirectSelections} {held f : ScalarField} {fields : List Field}
      {inlines : List InlineSpread} {spreads : List NamedSpread}
      (found : d.field? f.responseKey = some (.scalar held))
      (rest : Merging
        (d.putField (.scalar { held with inclusion := held.inclusion.merge f.inclusion }))
        ⟨fields, inlines, spreads⟩ r) : Merging d ⟨.scalar f :: fields, inlines, spreads⟩ r
  | heldEntity {d r below : DirectSelections} {held e : EntityField} {fields : List Field}
      {inlines : List InlineSpread} {spreads : List NamedSpread}
      (found : d.field? e.responseKey = some (.entity held)) (same : held.entity = e.entity)
      (inside : Merging held.selectionSet.direct e.selectionSet.direct below)
      (rest : Merging
        (d.putField (.entity { held with
          inclusion := held.inclusion.merge e.inclusion
          selectionSet := { held.selectionSet with direct := below } }))
        ⟨fields, inlines, spreads⟩ r) : Merging d ⟨.entity e :: fields, inlines, spreads⟩ r
  | newInline {d r : DirectSelections} {s : InlineSpread} {inlines : List InlineSpread}
      {spreads : List NamedSpread} (new : (d.inlineFragments.find? fun t => t.key == s.key) = none)
      (rest : Merging (d.putInline s) ⟨[], inlines, spreads⟩ r) :
      Merging d ⟨[], s :: inlines, spreads⟩ r
  | heldInline {d r below : DirectSelections} {held s : InlineSpread} {inlines : List InlineSpread}
      {spreads : List NamedSpread}
      (found : (d.inlineFragments.find? fun t => t.key == s.key) = some held)
      (inside : Merging held.selectionSet.direct s.selectionSet.direct below)
      (rest : Merging
        (d.putInline { held with selectionSet := { held.selectionSet with direct := below } })
        ⟨[], inlines, spreads⟩ r) : Merging d ⟨[], s :: inlines, spreads⟩ r
  | spread {d r : DirectSelections} {s : NamedSpread} {spreads : List NamedSpread}
      (rest : Merging (d.addSpread s) ⟨[], [], spreads⟩ r) : Merging d ⟨[], [], s :: spreads⟩ r

theorem merging_spreads (spreads : List NamedSpread) (d : DirectSelections) :
    Merging d ⟨[], [], spreads⟩ (spreads.foldl addSpread d) := by
  induction spreads generalizing d with
  | nil => exact .done
  | cons s spreads ih => exact .spread (ih (d.addSpread s))

/-- A field of leaf type goes in first, whatever follows. -/
theorem merging_addScalar {f : ScalarField} (added : d.addScalar f = .ok d₁)
    (rest : Merging d₁ ⟨fields, inlines, spreads⟩ r) :
    Merging d ⟨.scalar f :: fields, inlines, spreads⟩ r := by
  unfold addScalar at added
  split at added
  · rename_i new
    cases added
    exact .newField new rest
  · rename_i held found
    cases added
    exact .heldScalar found rest
  · cases added

mutual

/-- Merging that succeeds has put the selections together one after the other. -/
theorem merging_merge : ∀ added d r : DirectSelections, d.merge added = .ok r → Merging d added r
  | ⟨fields, inlines, spreads⟩, d, r, merged => by
      rw [merge, bind_eq_ok] at merged
      obtain ⟨d₁, first, merged⟩ := merged
      obtain ⟨d₂, second, merged⟩ := bind_eq_ok.mp merged
      cases merged
      apply merging_fields fields d d₁ first
      apply merging_inlines inlines d₁ d₂ second
      exact merging_spreads spreads d₂

/-- Fields go in first, whatever follows. -/
theorem merging_fields : ∀ (fields : List Field) (d d₁ : DirectSelections),
    d.mergeFields fields = .ok d₁ → ∀ {inlines : List InlineSpread} {spreads : List NamedSpread}
      {r : DirectSelections}, Merging d₁ ⟨[], inlines, spreads⟩ r →
      Merging d ⟨fields, inlines, spreads⟩ r
  | [], d, d₁, merged, _, _, _, rest => by
      rw [mergeFields] at merged
      cases merged
      exact rest
  | .scalar f :: fields, d, d₁, merged, _, _, _, rest => by
      rw [mergeFields, bind_eq_ok] at merged
      obtain ⟨d₂, added, merged⟩ := merged
      exact merging_addScalar added (merging_fields fields d₂ d₁ merged rest)
  | .entity ⟨id, responseKey, type, node, inclusion, ⟨typeInfo, direct⟩⟩ :: fields, d, d₁, merged, _,
      _, _, rest => by
      rw [mergeFields] at merged
      split at merged
      · rename_i new
        exact .newField new (merging_fields fields _ d₁ merged rest)
      · cases merged
      · rename_i held found
        split at merged
        · rename_i same
          obtain ⟨below, inside, merged⟩ := bind_eq_ok.mp merged
          exact .heldEntity found (beq_iff_eq.mp same) (merging_merge direct _ below inside)
            (merging_fields fields _ d₁ merged rest)
        · cases merged

/-- Inline fragments go in before spreads. -/
theorem merging_inlines : ∀ (inlines : List InlineSpread) (d d₁ : DirectSelections),
    d.mergeInlines inlines = .ok d₁ → ∀ {spreads : List NamedSpread} {r : DirectSelections},
      Merging d₁ ⟨[], [], spreads⟩ r → Merging d ⟨[], inlines, spreads⟩ r
  | [], d, d₁, merged, _, _, rest => by
      rw [mergeInlines] at merged
      cases merged
      exact rest
  | ⟨⟨typeInfo, direct⟩, deferral⟩ :: inlines, d, d₁, merged, _, _, rest => by
      rw [mergeInlines] at merged
      dsimp only at merged
      split at merged
      · rename_i new
        exact .newInline new (merging_inlines inlines _ d₁ merged rest)
      · rename_i held found
        obtain ⟨below, inside, merged⟩ := bind_eq_ok.mp merged
        exact .heldInline found (merging_merge direct _ below inside)
          (merging_inlines inlines _ d₁ merged rest)

end

theorem merging_addField {f : Field} (added : d.addField f = .ok r) : Merging d ⟨[f], [], []⟩ r :=
  merging_fields [f] d r added .done

theorem merging_addInline {s : InlineSpread} (added : d.addInline s = .ok r) :
    Merging d ⟨[], [s], []⟩ r :=
  merging_inlines [s] d r added .done

end DirectSelections
end SelectionGraph
