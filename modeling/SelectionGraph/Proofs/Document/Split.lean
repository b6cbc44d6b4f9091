import Mathlib.Data.List.Forall2
import SelectionGraph.Proofs.Document.Resolved
import SelectionGraph.Proofs.Session.References
import SelectionGraph.Session.Basic

/-!
# Split — documents whose selection sets are split

A field with selections may be written twice, with some of its selections in the first place and the
others in the second, and so may an inline fragment.

* `Split`          — selections some of which are split, in their own set or in any below;
* `Document.Resolved.selectsOn` — in a document that was read, every field with selections may be split;
* `SameFirsts`     — lists that have the same first occurrences wherever they stand;
* `Document.Split` — a document whose definitions have their selections split;
* `Document.Split.ofDocument` — it refers to the same types in the same order.
-/

namespace SelectionGraph

/-! ## Selections -/

/-- Selections can be made on a type, unless the schema does not have it. -/
def Schema.SelectsOn (schema : Schema) (type : TypeRef) : Prop :=
  ∀ kind ∈ schema.kind? type.innerName, kind.isComposite = true

instance (schema : Schema) : DecidablePred schema.SelectsOn := fun type =>
  inferInstanceAs (Decidable (∀ kind ∈ schema.kind? type.innerName, kind.isComposite = true))

/-- In a document that was read against a schema, selections are made wherever a field has some, so
that any such field may be split. -/
theorem Document.Resolved.selectsOn {schema : Schema} {document : Document}
    (resolved : document.Resolved schema) (outputs : schema.OutputFields) {d : ExecutableDefinition}
    (defined : document.Defines d) {type : Name} {f : FieldSelection}
    (selected : Selected d.rootType d.selections type f) (below : f.selections ≠ []) :
    schema.SelectsOn f.type := by
  obtain ⟨w, left⟩ := resolved.exists_written defined selected
  obtain ⟨⟨name, found⟩, ws, inner, leaf⟩ := Selection.of_resolve_field left
  have output : schema.kind? f.type.innerName ≠ some .inputObject :=
    outputs _ (Schema.mem_fields found)
  have inside : Selection.isLeaf schema f.type ≠ true := by
    intro isLeaf
    rw [leaf isLeaf, Selection.resolveAll] at inner
    exact below inner
  intro kind known
  rw [Selection.isLeaf, known] at inside
  rw [known] at output
  cases kind <;> simp_all [TypeKind.isComposite]

/-- Fields and inline fragments are split: at one place or at several, at any depth, in two or in
more.  A field that is split selects on an entity. -/
inductive Split (schema : Schema) : List Selection → List Selection → Prop
  | refl (ss : List Selection) : Split schema ss ss
  | trans {ss ts us : List Selection} (first : Split schema ss ts) (second : Split schema ts us) :
      Split schema ss us
  | append {ss ss' ts ts' : List Selection} (first : Split schema ss ss')
      (second : Split schema ts ts') : Split schema (ss ++ ts) (ss' ++ ts')
  | field (label : Option Name) {definition : FieldDefinition} (arguments : List Argument)
      (directives : List Directive) (selectsOn : schema.SelectsOn definition.type)
      (ss ts : List Selection) :
      Split schema [.field ⟨label, definition, arguments, directives, ss ++ ts⟩]
        [.field ⟨label, definition, arguments, directives, ss⟩,
          .field ⟨label, definition, arguments, directives, ts⟩]
  | inline (condition : Option Name) (directives : List Directive) (ss ts : List Selection) :
      Split schema [.inlineFragment condition directives (ss ++ ts)]
        [.inlineFragment condition directives ss, .inlineFragment condition directives ts]
  | inField (label : Option Name) {definition : FieldDefinition} (arguments : List Argument)
      (directives : List Directive) (selectsOn : schema.SelectsOn definition.type)
      {ss ts : List Selection} (inner : Split schema ss ts) :
      Split schema [.field ⟨label, definition, arguments, directives, ss⟩]
        [.field ⟨label, definition, arguments, directives, ts⟩]
  | inInline (condition : Option Name) (directives : List Directive) {ss ts : List Selection}
      (inner : Split schema ss ts) :
      Split schema [.inlineFragment condition directives ss] [.inlineFragment condition directives ts]

/-! ## First occurrences -/

section FirstOccurrences

variable {l l' m m' : List Name} {a : Name}

/-- First occurrences in the front are followed by the same ones of what comes later. -/
theorem eraseDups_append_congr (same : l.eraseDups = l'.eraseDups) (m : List Name) :
    (l ++ m).eraseDups = (l' ++ m).eraseDups := by
  induction m using List.reverseRecOn with
  | nil => simpa using same
  | append_singleton m a ih =>
      have members : a ∈ l ↔ a ∈ l' := by
        rw [← List.mem_eraseDups, same, List.mem_eraseDups]
      have known : a ∈ l ++ m ↔ a ∈ l' ++ m := by
        rw [List.mem_append, List.mem_append, members]
      rw [← List.append_assoc, ← List.append_assoc, eraseDups_concat, eraseDups_concat, ih]
      simp only [known]

/-- An element that came before is no first occurrence. -/
theorem eraseDups_append_cons (known : a ∈ l) (m : List Name) :
    (l ++ a :: m).eraseDups = (l ++ m).eraseDups := by
  have dropped : (l ++ [a]).eraseDups = l.eraseDups := by rw [eraseDups_concat, if_pos known]
  rw [List.append_cons]
  exact eraseDups_append_congr dropped m

/-- Two lists have the same first occurrences, whatever is before them. -/
def SameFirsts (l l' : List Name) : Prop :=
  ∀ before : List Name, (before ++ l).eraseDups = (before ++ l').eraseDups

theorem SameFirsts.refl (l : List Name) : SameFirsts l l :=
  fun _ => rfl

theorem SameFirsts.trans {l'' : List Name} (h : SameFirsts l l') (h' : SameFirsts l' l'') :
    SameFirsts l l'' :=
  fun before => (h before).trans (h' before)

theorem SameFirsts.append (h : SameFirsts l l') (h' : SameFirsts m m') :
    SameFirsts (l ++ m) (l' ++ m') := by
  intro before
  rw [← List.append_assoc, ← List.append_assoc, h' (before ++ l)]
  exact eraseDups_append_congr (h before) m'

theorem SameFirsts.cons (h : SameFirsts l l') (a : Name) : SameFirsts (a :: l) (a :: l') :=
  .append (.refl [a]) h

/-- A repetition may be left out. -/
theorem sameFirsts_again (a : Name) (l m : List Name) :
    SameFirsts (a :: (l ++ m)) (a :: (l ++ a :: m)) := by
  intro before
  have known : a ∈ before ++ a :: l := by simp
  have dropped := eraseDups_append_cons known m
  simpa using dropped.symm

end FirstOccurrences

/-! ## Types -/

theorem Selection.typesAll_append (parent : Name) (ss ts : List Selection) :
    typesAll parent (ss ++ ts) = typesAll parent ss ++ typesAll parent ts := by
  induction ss with
  | nil => simp [typesAll]
  | cons s ss ih => rw [List.cons_append, typesAll, typesAll, ih, List.append_assoc]

/-- Split selections use the same types, in the order of their first use. -/
theorem Split.types {schema : Schema} {ss ts : List Selection} (h : Split schema ss ts) :
    ∀ parent, SameFirsts (Selection.typesAll parent ss) (Selection.typesAll parent ts) := by
  induction h with
  | refl ss => exact fun _ => .refl _
  | trans _ _ first second => exact fun parent => (first parent).trans (second parent)
  | append _ _ first second =>
      intro parent
      rw [Selection.typesAll_append, Selection.typesAll_append]
      exact (first parent).append (second parent)
  | @field label definition arguments directives _ ss ts =>
      intro parent
      simp only [Selection.typesAll, Selection.types, Selection.typesAll_append, List.append_nil,
        List.cons_append]
      have twice := sameFirsts_again definition.type.innerName
        (definition.type.innerName :: Selection.typesAll definition.type.innerName ss)
      exact (twice _).trans (twice _)
  | inline condition directives ss ts =>
      intro parent
      simp only [Selection.typesAll, Selection.types, Selection.typesAll_append, List.append_nil,
        List.cons_append]
      exact sameFirsts_again _ _ _
  | inField label arguments directives _ _ ih =>
      intro parent
      simp only [Selection.typesAll, Selection.types, List.append_nil]
      exact ((ih _).cons _).cons _
  | inInline condition directives _ ih =>
      intro parent
      simp only [Selection.typesAll, Selection.types, List.append_nil]
      exact (ih _).cons _

/-! ## Definitions -/

/-- An operation with some of its selections split. -/
def OperationDefinition.Split (schema : Schema) (o o' : OperationDefinition) : Prop :=
  ∃ selections, SelectionGraph.Split schema o.selections selections ∧ o' = { o with selections }

/-- A fragment with some of its selections split. -/
def FragmentDefinition.Split (schema : Schema) (f f' : FragmentDefinition) : Prop :=
  ∃ selections, SelectionGraph.Split schema f.selections selections ∧ f' = { f with selections }

variable {schema : Schema}

theorem OperationDefinition.Split.types {o o' : OperationDefinition} (h : Split schema o o') :
    SameFirsts o.types o'.types := by
  obtain ⟨selections, split, rfl⟩ := h
  exact .append (.refl _) ((split.types o.rootType).cons _)

theorem FragmentDefinition.Split.types {f f' : FragmentDefinition} (h : Split schema f f') :
    SameFirsts f.types f'.types := by
  obtain ⟨selections, split, rfl⟩ := h
  exact (split.types f.typeCondition).cons _

/-- A document whose definitions have some of their selections split.  Their texts may be any. -/
structure Document.Split (schema : Schema) (document document' : Document) : Prop where
  operations : List.Forall₂ (fun o o' => OperationDefinition.Split schema o.definition o'.definition)
    document.operations document'.operations
  fragments : List.Forall₂ (fun f f' => FragmentDefinition.Split schema f.definition f'.definition)
    document.fragments document'.fragments

theorem sameFirsts_flatMap {α : Type} {R : α → α → Prop} {f : α → List Name}
    (same : ∀ a b, R a b → SameFirsts (f a) (f b)) {as bs : List α}
    (related : List.Forall₂ R as bs) : SameFirsts (as.flatMap f) (bs.flatMap f) := by
  induction related with
  | nil => exact .refl _
  | cons first _ ih => exact (same _ _ first).append ih

theorem map_eq_of_forall₂ {α β : Type} {R : α → α → Prop} {f : α → β}
    (same : ∀ a b, R a b → f a = f b) {as bs : List α} (related : List.Forall₂ R as bs) :
    as.map f = bs.map f := by
  rw [← List.forall₂_eq_eq_eq, List.forall₂_map_left_iff, List.forall₂_map_right_iff]
  exact related.imp same

namespace Document.Split

variable {document document' : Document}

theorem types (h : Split schema document document') :
    document.types.eraseDups = document'.types.eraseDups := by
  have first := sameFirsts_flatMap (f := fun o : Sourced OperationDefinition =>
    o.definition.types) (fun _ _ split => split.types) h.operations
  have second := sameFirsts_flatMap (f := fun f : Sourced FragmentDefinition =>
    f.definition.types) (fun _ _ split => split.types) h.fragments
  exact first.append second []

theorem rootTypes (h : Split schema document document') : document.rootTypes = document'.rootTypes := by
  have operations := map_eq_of_forall₂ (f := fun o : Sourced OperationDefinition =>
    o.definition.rootType) (by rintro _ _ ⟨_, _, same⟩; rw [same]) h.operations
  have fragments := map_eq_of_forall₂ (f := fun f : Sourced FragmentDefinition =>
    f.definition.typeCondition) (by rintro _ _ ⟨_, _, same⟩; rw [same]) h.fragments
  exact congrArg₂ List.append operations fragments

/-- The document refers to the same types in the same order, and fails at the same unknown one. -/
theorem ofDocument (h : Split schema document document') :
    SchemaView.ofDocument schema document = SchemaView.ofDocument schema document' := by
  rw [SchemaView.ofDocument, SchemaView.ofDocument, h.types]

/-- A session starts alike. -/
theorem start (h : Split schema document document') (next : Nat) :
    Session.start schema document' next
      = (Session.start schema document next).map fun s => { s with document := document' } := by
  rw [Session.start, Session.start, ← h.ofDocument, h.rootTypes]
  cases SchemaView.ofDocument schema document <;> rfl

/-- A fragment is found under its name in both, or in none. -/
theorem fragment? (h : Split schema document document') (name : Name) :
    Option.Rel (fun f f' => FragmentDefinition.Split schema f.definition f'.definition)
      (document.fragment? name) (document'.fragment? name) := by
  have fragments := h.fragments
  unfold Document.fragment?
  generalize document.fragments = l at fragments
  generalize document'.fragments = l' at fragments
  induction fragments with
  | nil => exact .none
  | @cons g g' l l' first _ ih =>
      have same : g'.definition.name = g.definition.name := by
        obtain ⟨_, _, eq⟩ := first
        rw [eq]
      rw [List.find?_cons, List.find?_cons, same]
      split
      · exact .some first
      · exact ih

/-- An operation is found under its name in both, or in none. -/
theorem operation? (h : Split schema document document') (name : Option Name) :
    Option.Rel (fun o o' => OperationDefinition.Split schema o.definition o'.definition)
      (document.operation? name) (document'.operation? name) := by
  have operations := h.operations
  unfold Document.operation?
  generalize document.operations = l at operations
  generalize document'.operations = l' at operations
  cases name with
  | none =>
      cases operations with
      | nil => exact .none
      | cons first rest =>
          cases rest with
          | nil => exact .some first
          | cons _ _ => exact .none
  | some name =>
      induction operations with
      | nil => exact .none
      | @cons g g' l l' first _ ih =>
          have same : g'.definition.name = g.definition.name := by
            obtain ⟨_, _, eq⟩ := first
            rw [eq]
          dsimp only at ih ⊢
          rw [List.find?_cons, List.find?_cons, same]
          split
          · exact .some first
          · exact ih

end Document.Split

end SelectionGraph
