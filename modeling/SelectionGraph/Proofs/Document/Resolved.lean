import SelectionGraph.Document.Resolve
import SelectionGraph.Proofs.Document.Visited
import SelectionGraph.Proofs.Session.Reachable

/-!
# Resolved — documents that were read against a schema

* `SchemaView.knows_of_ofDocument` — a view of a document knows the types that the document uses;
* `Document.resolved_ofSource`     — what is left of a source is selected on the types of its schema;
* `Document.Resolved.exists_written` — every field in it is left of one that was written;
* `Session.visited_iff_kept`       — so the walk of a definition comes to whatever nothing skips.
-/

namespace SelectionGraph

variable {schema : Schema} {view : SchemaView} {document : Document}

/-! ## Types -/

/-- The schema of a view has a type. -/
def SchemaView.Knows (view : SchemaView) (name : Name) : Prop :=
  ∃ kind, view.schema.kind? name = some kind

theorem SchemaView.Knows.isComposite {name : Name} (h : view.Knows name) :
    ∃ b, view.isComposite name = .ok b := by
  obtain ⟨kind, known⟩ := h
  exact ⟨kind.isComposite, by rw [SchemaView.isComposite, known]⟩

/-- If a function succeeds on a list then it does on each member. -/
theorem exists_ok_of_mapM {α β : Type} {f : α → Except BuildError β} {l : List α} {bs : List β}
    (h : l.mapM f = .ok bs) : ∀ a ∈ l, ∃ b, f a = .ok b := by
  rw [← List.mapM'_eq_mapM] at h
  induction l generalizing bs with
  | nil => simp
  | cons a rest ih =>
      rw [List.mapM'_cons] at h
      obtain ⟨b, first, h⟩ := bind_eq_ok.mp h
      obtain ⟨later, others, -⟩ := bind_eq_ok.mp h
      exact List.forall_mem_cons.mpr ⟨⟨b, first⟩, ih others⟩

/-- A view of a document is there only if its schema has all types that the document uses. -/
theorem SchemaView.knows_of_ofDocument (h : ofDocument schema document = .ok view) :
    ∀ name ∈ document.types, view.Knows name := by
  intro name used
  obtain ⟨referenced, each, same⟩ := bind_eq_ok.mp h
  cases same
  obtain ⟨t, found⟩ := exists_ok_of_mapM each name (List.mem_eraseDups.mpr used)
  cases known : schema.kind? name with
  | some kind => exact ⟨kind, known⟩
  | none =>
      rw [known] at found
      cases found

/-- The types that a document uses are known to its sessions. -/
theorem Session.Reachable.knows {s : Session} (h : s.Reachable document) :
    ∀ name ∈ document.types, s.view.Knows name := by
  induction h with
  | start started =>
      obtain ⟨view, made, same⟩ := bind_eq_ok.mp started
      cases same
      intro name used
      exact SchemaView.knows_of_ofDocument made name used
  | operation _ _ ih => exact ih
  | operationNamed _ _ ih =>
      unfold Session.buildOperationNamed
      split
      · exact ih
      · exact ih
  | all _ ih => exact ih
  | fragment _ _ ih => exact ih

/-- A definition is one of a document. -/
def Document.Defines (document : Document) : ExecutableDefinition → Prop
  | .operation o => ∃ text, (⟨o, text⟩ : Sourced OperationDefinition) ∈ document.operations
  | .fragment f => ∃ text, (⟨f, text⟩ : Sourced FragmentDefinition) ∈ document.fragments

/-- A document uses the types of its definitions. -/
theorem Document.Defines.types {d : ExecutableDefinition} (h : document.Defines d) :
    ∀ name ∈ Selection.typesAll d.rootType d.selections, name ∈ document.types := by
  intro name used
  cases d with
  | operation o =>
      obtain ⟨text, mem⟩ := h
      have own : name ∈ o.types := List.mem_append_right _ (List.mem_cons_of_mem _ used)
      exact List.mem_append_left _ (List.mem_flatMap.mpr ⟨_, mem, own⟩)
  | fragment f =>
      obtain ⟨text, mem⟩ := h
      have own : name ∈ f.types := List.mem_cons_of_mem _ used
      exact List.mem_append_right _ (List.mem_flatMap.mpr ⟨_, mem, own⟩)

theorem Document.defines_of_fragment? {name : Name} {f : Sourced FragmentDefinition}
    (h : document.fragment? name = some f) : document.Defines (.fragment f.definition) :=
  ⟨f.text, List.mem_of_find?_eq_some h⟩

theorem Document.defines_of_operation? {name : Option Name} {o : Sourced OperationDefinition}
    (h : document.operation? name = some o) : document.Defines (.operation o.definition) := by
  refine ⟨o.text, ?_⟩
  cases name with
  | some name => exact List.mem_of_find?_eq_some h
  | none =>
      unfold Document.operation? at h
      dsimp only at h
      split at h
      · rename_i only single
        cases h
        rw [single]
        exact List.mem_singleton_self _
      · cases h

/-! ## Fields of output types -/

/-- The fields that selections on a schema can select. -/
def Schema.fields (schema : Schema) : List FieldDefinition :=
  typenameField :: introspectionFields ++ schema.types.flatMap SchemaType.fields

theorem Schema.mem_fields {type name : Name} {field : FieldDefinition}
    (h : schema.fieldOf? type name = some field) : field ∈ schema.fields := by
  rw [fieldOf?] at h
  split at h
  · cases h
  · rename_i t found
    split at h
    · rename_i own
      cases h
      exact List.mem_append_right _ (List.mem_flatMap.mpr
        ⟨t, List.mem_of_find?_eq_some found, List.mem_of_find?_eq_some own⟩)
    · split at h
      · cases h
        exact List.mem_append_left _ (List.mem_cons_self ..)
      · split at h
        · exact List.mem_append_left _ (List.mem_cons_of_mem _ (List.mem_of_find?_eq_some h))
        · cases h

/-- No field of a schema has an input type.  Every valid schema is of this kind. -/
def Schema.OutputFields (schema : Schema) : Prop :=
  ∀ field ∈ schema.fields, schema.kind? field.type.innerName ≠ some .inputObject

instance : DecidablePred Schema.OutputFields := fun schema =>
  inferInstanceAs (Decidable (∀ field ∈ schema.fields,
    schema.kind? field.type.innerName ≠ some .inputObject))

example : Heroes.schema.OutputFields := by decide +kernel

/-! ## Selections on the types of a schema -/

namespace Selection

variable {type : Name} {w : Written.Selection} {ws : List Written.Selection} {s : Selection}

theorem mem_resolveAll : s ∈ resolveAll schema type ws ↔ ∃ w ∈ ws, resolve schema type w = some s := by
  induction ws with
  | nil => simp [resolveAll]
  | cons w ws ih => simp [resolveAll, ih]

/-- A field that is left was written with selections only if it is no leaf; they are left on its own
type. -/
theorem of_resolve_field {f : FieldSelection} (h : resolve schema type w = some (.field f)) :
    (∃ name, schema.fieldOf? type name = some f.definition)
      ∧ ∃ ws, f.selections = resolveAll schema f.type.innerName ws
        ∧ (isLeaf schema f.type = true → ws = []) := by
  cases w with
  | field label name arguments directives selections =>
      rw [resolve] at h
      split at h
      · cases h
      · rename_i definition found
        split at h
        · cases h
        · rename_i allowed
          cases h
          refine ⟨⟨name, found⟩, selections, rfl, fun leaf => ?_⟩
          change isLeaf schema definition.type = true at leaf
          simpa [leaf] using allowed
  | inlineFragment condition directives selections =>
      cases condition with
      | none => simp [resolve] at h
      | some condition =>
          rw [resolve] at h
          split at h <;> cases h
  | fragmentSpread name directives => simp [resolve] at h

theorem of_resolve_inline {condition : Option Name} {directives : List Directive}
    {selections : List Selection}
    (h : resolve schema type w = some (.inlineFragment condition directives selections)) :
    ∃ ws, selections = resolveAll schema (condition.getD type) ws := by
  cases w with
  | field label name arguments directives selections =>
      rw [resolve] at h
      split at h
      · cases h
      · split at h <;> cases h
  | inlineFragment written directives selections =>
      cases written with
      | none =>
          rw [resolve] at h
          cases h
          exact ⟨selections, rfl⟩
      | some written =>
          rw [resolve] at h
          split at h
          · cases h
            exact ⟨selections, rfl⟩
          · cases h
  | fragmentSpread name directives => simp [resolve] at h

theorem mem_typesAll {ss : List Selection} {name : Name} (mem : s ∈ ss) (used : name ∈ s.types type) :
    name ∈ typesAll type ss := by
  induction ss with
  | nil => cases mem
  | cons t ss ih =>
      rw [typesAll, List.mem_append]
      rcases List.mem_cons.mp mem with rfl | later
      · exact Or.inl used
      · exact Or.inr (ih later)

end Selection

/-! ## Definitions that are left of a source -/

/-- The definitions of a document select on the types of a schema. -/
def Document.Resolved (schema : Schema) (document : Document) : Prop :=
  ∀ d, document.Defines d → ∃ ws, d.selections = Selection.resolveAll schema d.rootType ws

namespace Document

theorem selections_of_resolveOperation {o : Written.Operation} {definition : OperationDefinition}
    (h : resolveOperation schema o = some definition) :
    ∃ ws, definition.selections = Selection.resolveAll schema definition.rootType ws := by
  obtain ⟨root, -, same⟩ := Option.bind_eq_some_iff.mp h
  cases same
  exact ⟨o.selections, rfl⟩

theorem selections_of_resolveFragment {f : Written.Fragment} {definition : FragmentDefinition}
    (h : resolveFragment schema f = some definition) :
    ∃ ws, definition.selections = Selection.resolveAll schema definition.typeCondition ws := by
  obtain ⟨type, -, same⟩ := Option.bind_eq_some_iff.mp h
  cases same
  exact ⟨f.selections, rfl⟩

theorem Resolved.addOperation (h : document.Resolved schema) {o : OperationDefinition}
    {text : Option String} (new : ∃ ws, o.selections = Selection.resolveAll schema o.rootType ws) :
    Resolved schema { document with operations := document.operations ++ [⟨o, text⟩] } := by
  rintro (o' | f) ⟨text', mem⟩
  · rcases List.mem_append.mp mem with before | last
    · exact h (.operation o') ⟨text', before⟩
    · cases List.mem_singleton.mp last
      exact new
  · exact h (.fragment f) ⟨text', mem⟩

theorem Resolved.addFragment (h : document.Resolved schema) {f : FragmentDefinition}
    {text : Option String} (new : ∃ ws, f.selections = Selection.resolveAll schema f.typeCondition ws) :
    Resolved schema { document with fragments := document.fragments ++ [⟨f, text⟩] } := by
  rintro (o | f') ⟨text', mem⟩
  · exact h (.operation o) ⟨text', mem⟩
  · rcases List.mem_append.mp mem with before | last
    · exact h (.fragment f') ⟨text', before⟩
    · cases List.mem_singleton.mp last
      exact new

theorem Resolved.addDefinition (h : document.Resolved schema) (p : Written.Passage) :
    (document.addDefinition schema p).Resolved schema := by
  unfold Document.addDefinition
  split
  · split
    · rename_i resolved
      split
      · exact h.addOperation (selections_of_resolveOperation resolved)
      · exact h
    · exact h
  · split
    · rename_i resolved
      split
      · exact h.addFragment (selections_of_resolveFragment resolved)
      · exact h
    · exact h
  · exact h

/-- What is left of a source selects on the types of the schema. -/
theorem resolved_ofSource (schema : Schema) (source : Written.Source) :
    (ofSource schema source).Resolved schema := by
  have empty : (Document.mk [] []).Resolved schema := by
    rintro (o | f) ⟨text, mem⟩ <;> cases mem
  suffices ∀ document : Document, document.Resolved schema →
      (source.foldl (addDefinition schema) document).Resolved schema from this _ empty
  induction source with
  | nil => exact fun _ h => h
  | cons p rest ih => exact fun _ h => ih _ (h.addDefinition p)

/-- A field that is selected in a document is what is left of one that was written.  The induction is
on where it stands. -/
theorem Resolved.exists_written (h : document.Resolved schema) {d : ExecutableDefinition}
    (defined : document.Defines d) {type : Name} {f : FieldSelection}
    (within : Selected d.rootType d.selections type f) :
    ∃ w, Selection.resolve schema type w = some (.field f) := by
  obtain ⟨ws, read⟩ := h d defined
  generalize d.selections = ss at within read
  generalize d.rootType = root at within read
  induction within generalizing ws with
  | here mem =>
      subst read
      obtain ⟨w, -, left⟩ := Selection.mem_resolveAll.mp mem
      exact ⟨w, left⟩
  | field mem _ ih =>
      subst read
      obtain ⟨w, -, left⟩ := Selection.mem_resolveAll.mp mem
      obtain ⟨-, ws, selections, -⟩ := Selection.of_resolve_field left
      exact ih ws selections
  | inline mem _ ih =>
      subst read
      obtain ⟨w, -, left⟩ := Selection.mem_resolveAll.mp mem
      obtain ⟨ws, selections⟩ := Selection.of_resolve_inline left
      exact ih ws selections

end Document

/-! ## What the walk of a definition comes to -/

/-- A selection is kept if nothing skips it, neither its own directives nor those of a selection that
it stands in.  Types play no part in this. -/
inductive Kept : List Selection → Selection → Prop
  | here {ss : List Selection} {s : Selection} (mem : s ∈ ss) (kept : ¬ s.Skipped) : Kept ss s
  | field {ss : List Selection} {f : FieldSelection} {s : Selection} (mem : .field f ∈ ss)
      (kept : ¬ (Selection.field f).Skipped) (inner : Kept f.selections s) : Kept ss s
  | inline {ss selections : List Selection} {condition : Option Name} {directives : List Directive}
      {s : Selection} (mem : .inlineFragment condition directives selections ∈ ss)
      (kept : ¬ (Selection.inlineFragment condition directives selections).Skipped)
      (inner : Kept selections s) : Kept ss s

variable {ss : List Selection} {s : Selection}

theorem Visited.kept (h : Visited view ss s) : Kept ss s := by
  induction h with
  | here mem kept => exact .here mem kept
  | field mem kept _ _ ih => exact .field mem kept ih
  | inline mem kept _ ih => exact .inline mem kept ih

theorem Kept.not_nil : ¬ Kept [] s := by
  intro h
  cases h <;> simp_all

/-- A field whose selections are kept is composite. -/
theorem SchemaView.isComposite_of_not_leaf {type : TypeRef} (known : view.Knows type.innerName)
    (output : view.schema.kind? type.innerName ≠ some .inputObject)
    (inner : Selection.isLeaf view.schema type = false) : view.isComposite type.innerName = .ok true := by
  obtain ⟨kind, known⟩ := known
  rw [isComposite, known]
  rw [Selection.isLeaf, known] at inner
  cases kind <;> simp_all [TypeKind.isComposite]

/-- On types that are known, the walk comes to whatever is kept: leaves hold nothing. -/
theorem Kept.visited (outputs : view.schema.OutputFields) (h : Kept ss s) :
    ∀ type ws, ss = Selection.resolveAll view.schema type ws →
      (∀ name ∈ Selection.typesAll type ss, view.Knows name) → Visited view ss s := by
  induction h with
  | here mem kept => exact fun _ _ _ _ => .here mem kept
  | @field ss f s mem kept inner ih =>
      rintro type ws same known
      obtain ⟨w, -, left⟩ := Selection.mem_resolveAll.mp (same ▸ mem)
      obtain ⟨⟨name, found⟩, inside, selections, leaf⟩ := Selection.of_resolve_field left
      have types : ∀ name ∈ f.type.innerName :: Selection.typesAll f.type.innerName f.selections,
          view.Knows name := by
        intro name used
        refine known name (Selection.mem_typesAll mem ?_)
        cases f
        exact List.mem_cons_of_mem _ used
      have composite : view.isComposite f.type.innerName = .ok true := by
        refine SchemaView.isComposite_of_not_leaf (types _ (List.mem_cons_self ..))
          (outputs _ (Schema.mem_fields found)) ?_
        by_contra isLeaf
        rw [selections, leaf (by simpa using isLeaf)] at inner
        exact Kept.not_nil inner
      exact .field mem kept composite
        (ih _ inside selections fun name used => types name (List.mem_cons_of_mem _ used))
  | @inline ss selections condition directives s mem kept inner ih =>
      rintro type ws same known
      obtain ⟨w, -, left⟩ := Selection.mem_resolveAll.mp (same ▸ mem)
      obtain ⟨inside, selections⟩ := Selection.of_resolve_inline left
      refine .inline mem kept (ih _ inside selections fun name used => ?_)
      exact known name (Selection.mem_typesAll mem (List.mem_cons_of_mem _ used))

/-- In a document that was read against the schema of its session, the walk of a definition comes to
exactly those selections that nothing skips. -/
theorem Session.visited_iff_kept {source : Written.Source} {next : Nat} {session : Session}
    (outputs : schema.OutputFields)
    (started : Session.start schema (Document.ofSource schema source) next = .ok session)
    {d : ExecutableDefinition} (defined : (Document.ofSource schema source).Defines d) :
    Visited session.view d.selections s ↔ Kept d.selections s := by
  have same : session.view.schema = schema := by
    obtain ⟨view, made, built⟩ := bind_eq_ok.mp started
    obtain ⟨referenced, -, view⟩ := bind_eq_ok.mp made
    cases built
    cases view
    rfl
  obtain ⟨ws, selections⟩ := Document.resolved_ofSource schema source d defined
  have known := (Session.Reachable.start started).knows
  rw [← same] at outputs selections
  exact ⟨Visited.kept, fun kept =>
    kept.visited outputs _ ws selections fun name used => known name (defined.types name used)⟩

end SelectionGraph
