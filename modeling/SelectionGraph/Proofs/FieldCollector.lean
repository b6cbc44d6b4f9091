import SelectionGraph.FieldCollector
import SelectionGraph.Proofs.Ordered

/-!
# FieldCollector — what is collected, by the type it was selected on

* `fieldsFor_collect`      — collecting adds a field to those of its type, and to no others;
* `FieldCollector.Has`     — a field of a name was selected on a type;
* `FieldCollector.Sound`   — no name repeats on a type, and fields have the types that they should have;
* `Sound.filter_fieldsFor` — the one field of a name.
-/

namespace SelectionGraph
namespace FieldCollector

variable {c : FieldCollector} {parent name other : Name} {type : TypeRef}
  {typeOf : Name → Name → TypeRef}

/-- The fields of a type with one more, unless there is one of its name. -/
def addField (name : Name) (type : TypeRef) : List (Name × TypeRef) → List (Name × TypeRef) :=
  Ordered.upsert (fun f => f.1 == name) id (name, type)

theorem fieldsFor_empty (parent : Name) : empty.fieldsFor parent = [] :=
  rfl

theorem fieldsFor_eq (c : FieldCollector) (parent : Name) :
    c.fieldsFor parent = ((c.fieldsByType.find? fun t => t.1 == parent).map Prod.snd).getD [] := by
  rw [fieldsFor, Ordered.lookup_eq]

/-- Collecting adds a field to those of its type, and to no others. -/
theorem fieldsFor_collect (c : FieldCollector) (parent name : Name) (type : TypeRef)
    (other : Name) :
    (c.collect parent name type).fieldsFor other
      = if other = parent then addField name type (c.fieldsFor parent)
        else c.fieldsFor other := by
  simp only [fieldsFor_eq, collect]
  split
  · rename_i same
    subst same
    have found := @Ordered.find?_upsert _ (fun t : Name × List (Name × TypeRef) => t.1 == other)
      (fun t => (t.1, addField name type t.2)) (other, [(name, type)]) (beq_self_eq_true other)
      (fun _ => id) c.fieldsByType
    refine (congrArg (fun t => (t.map Prod.snd).getD []) found).trans ?_
    cases c.fieldsByType.find? fun t => t.1 == other <;> rfl
  · rename_i apart
    have others : ∀ t : Name × List (Name × TypeRef), (t.1 == parent) = true →
        (t.1 == other) = false := by
      intro t same
      simpa [beq_iff_eq.mp same] using Ne.symm apart
    refine congrArg (fun t => (Option.map Prod.snd t).getD []) ?_
    exact @Ordered.find?_upsert_of_other _ (fun t => t.1 == parent) (fun t => t.1 == other)
      (fun t => (t.1, addField name type t.2)) (parent, [(name, type)])
      (others _ (beq_self_eq_true parent)) others others c.fieldsByType

/-! ## Fields of a name -/

/-- A field of a name was selected on a type. -/
def Has (c : FieldCollector) (parent name : Name) : Prop :=
  ∃ f ∈ c.fieldsFor parent, f.1 = name

theorem exists_addField {fields : List (Name × TypeRef)} :
    (∃ f ∈ addField name type fields, f.1 = other)
      ↔ (∃ f ∈ fields, f.1 = other) ∨ name = other := by
  refine Ordered.exists_upsert fields ?_ fun _ => Iff.rfl
  intro f found
  have same : f.1 = name := by simpa using List.find?_some found
  simp [same]

theorem has_collect {of : Name} : (c.collect parent name type).Has of other
    ↔ c.Has of other ∨ of = parent ∧ name = other := by
  unfold Has
  rw [fieldsFor_collect]
  split
  · rename_i same
    subst same
    rw [exists_addField]
    simp
  · rename_i apart
    simp [apart]

/-- A field that was collected before changes nothing. -/
theorem collect_eq_self (has : c.Has parent name) : c.collect parent name type = c := by
  obtain ⟨f, mem, named⟩ := has
  rw [fieldsFor_eq] at mem
  cases found : c.fieldsByType.find? fun t => t.1 == parent with
  | none =>
      rw [found] at mem
      cases mem
  | some t =>
      rw [found] at mem
      have there : (t.2.find? fun g => g.1 == name).isSome = true :=
        List.find?_isSome.mpr ⟨f, mem, beq_iff_eq.mpr named⟩
      obtain ⟨g, held⟩ := Option.isSome_iff_exists.mp there
      have same : addField name type t.2 = t.2 := Ordered.upsert_eq_self held rfl
      exact congrArg mk (Ordered.upsert_eq_self found (congrArg (Prod.mk t.1) same))

/-! ## Types of fields -/

/-- No name repeats among the fields of a type, and every field has the type that it should have. -/
structure Sound (typeOf : Name → Name → TypeRef) (c : FieldCollector) : Prop where
  apart : ∀ parent, (c.fieldsFor parent).Pairwise fun f g => f.1 ≠ g.1
  typed : ∀ parent, ∀ f ∈ c.fieldsFor parent, f.2 = typeOf parent f.1

theorem sound_empty : empty.Sound typeOf where
  apart := by simp [fieldsFor_empty]
  typed := by simp [fieldsFor_empty]

/-- Collecting a field of the type that it should have keeps the others. -/
theorem Sound.collect (h : c.Sound typeOf) (parent name : Name) :
    (c.collect parent name (typeOf parent name)).Sound typeOf where
  apart other := by
    rw [fieldsFor_collect]
    split
    · refine Ordered.pairwise_upsert (h.apart parent) ?_ ?_ ?_
      · exact fun _ _ _ apart => apart
      · exact fun _ _ _ apart => apart
      · exact fun f apart => by simpa using apart
    · exact h.apart other
  typed other := by
    rw [fieldsFor_collect]
    split
    · rename_i same
      subst same
      exact Ordered.forall_upsert (h.typed other) (fun f mem _ => h.typed other f mem) rfl
    · exact h.typed other

/-- Of a name that was selected on a type there is one field, of the type that it should have. -/
theorem Sound.filter_fieldsFor (h : c.Sound typeOf) (has : c.Has parent name) :
    (c.fieldsFor parent).filter (fun f => f.1 == name) = [(name, typeOf parent name)] := by
  obtain ⟨f, mem, rfl⟩ := has
  have typed := h.typed parent f mem
  have apart := h.apart parent
  generalize c.fieldsFor parent = fields at mem apart
  induction fields with
  | nil => cases mem
  | cons g fields ih =>
      obtain ⟨first, apart⟩ := List.pairwise_cons.mp apart
      rcases List.mem_cons.mp mem with rfl | later
      · have others : fields.filter (fun g => g.1 == f.1) = [] :=
          List.filter_eq_nil_iff.mpr fun g mem => by simpa using (first g mem).symm
        rw [List.filter_cons_of_pos (by simp), others, ← typed]
      · rw [List.filter_cons_of_neg (by simpa using first f later), ih later apart]

end FieldCollector
end SelectionGraph
