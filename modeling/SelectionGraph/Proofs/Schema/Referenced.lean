import SelectionGraph.Proofs.Document.Resolved
import SelectionGraph.Proofs.Ordered.Addressed

/-!
# Referenced — the types that a document uses, in the order of their first use

* `Selection.TypeAt`, `Document.TypeAt` — where in selections and in a document a type is used;
* `Document.addressed_types`            — the types of a document are listed in the order of these
  addresses;
* `SchemaView.ofDocument_eq_error_iff`  — no view is made exactly if a type is unknown, and the first
  of these is reported;
* `SchemaView.lists_of_ofDocument`      — else the view has each type that is used once;
* `SchemaView.isRootFieldType_markingRoots` — the types that are marked as roots.
-/

namespace SelectionGraph

variable {schema : Schema} {document : Document}

/-! ## Where types are used -/

namespace Selection

/-- The selections of a set on a type use types: the set its own, each field its type and, below it,
those of its set, and each inline fragment those of its set.  The address says which selection is taken
at each turn, and whether the set of a field is gone into. -/
inductive TypeAt : Name → List Selection → List Nat → Name → Prop
  | set {type : Name} {ss : List Selection} : TypeAt type ss [] type
  | field {type : Name} {ss : List Selection} {i : Nat} {f : FieldSelection}
      (here : ss[i]? = some (.field f)) : TypeAt type ss [i] f.type.innerName
  | inField {type name : Name} {ss : List Selection} {i : Nat} {f : FieldSelection}
      {path : List Nat} (here : ss[i]? = some (.field f))
      (below : TypeAt f.type.innerName f.selections path name) : TypeAt type ss (i :: 0 :: path) name
  | inInline {type name : Name} {ss : List Selection} {i : Nat} {condition : Option Name}
      {directives : List Directive} {inner : List Selection} {path : List Nat}
      (here : ss[i]? = some (.inlineFragment condition directives inner))
      (below : TypeAt (condition.getD type) inner path name) : TypeAt type ss (i :: path) name

/-- A selection uses a type, at an address that goes on from that of the selection. -/
def UsesAt (type : Name) (s : Selection) (path : List Nat) (name : Name) : Prop :=
  TypeAt type [s] (0 :: path) name

variable {type name : Name} {ss : List Selection} {path : List Nat}

theorem typeAt_iff : TypeAt type ss path name ↔ (path = [] ∧ name = type)
    ∨ ∃ i s rest, ss[i]? = some s ∧ path = i :: rest ∧ UsesAt type s rest name := by
  constructor
  · intro h
    cases h with
    | set => exact Or.inl ⟨rfl, rfl⟩
    | field here => exact Or.inr ⟨_, _, _, here, rfl, .field rfl⟩
    | inField here below => exact Or.inr ⟨_, _, _, here, rfl, .inField rfl below⟩
    | inInline here below => exact Or.inr ⟨_, _, _, here, rfl, .inInline rfl below⟩
  · rintro (⟨rfl, rfl⟩ | ⟨i, s, rest, here, rfl, uses⟩)
    · exact .set
    · cases uses with
      | field first =>
          cases first
          exact .field here
      | inField first below =>
          cases first
          exact .inField here below
      | inInline first below =>
          cases first
          exact .inInline here below

theorem usesAt_field {f : FieldSelection} : UsesAt type (.field f) path name
    ↔ (path = [] ∧ name = f.type.innerName)
      ∨ ∃ rest, path = 0 :: rest ∧ TypeAt f.type.innerName f.selections rest name := by
  constructor
  · intro h
    cases h with
    | field first =>
        cases first
        exact Or.inl ⟨rfl, rfl⟩
    | inField first below =>
        cases first
        exact Or.inr ⟨_, rfl, below⟩
    | inInline first => cases first
  · rintro (⟨rfl, rfl⟩ | ⟨rest, rfl, below⟩)
    · exact .field rfl
    · exact .inField rfl below

theorem usesAt_inline {condition : Option Name} {directives : List Directive}
    {inner : List Selection} : UsesAt type (.inlineFragment condition directives inner) path name
      ↔ TypeAt (condition.getD type) inner path name := by
  constructor
  · intro h
    cases h with
    | field first => cases first
    | inField first => cases first
    | inInline first below =>
        cases first
        exact below
  · exact .inInline rfl

theorem not_usesAt_spread {spread : Name} {directives : List Directive} :
    ¬ UsesAt type (.fragmentSpread spread directives) path name := by
  intro h
  cases h with
  | field first | inField first | inInline first => cases first

/-! ## Lists of types -/

theorem typesAll_eq_flatMap (type : Name) (ss : List Selection) :
    typesAll type ss = ss.flatMap (types type) := by
  induction ss with
  | nil => rfl
  | cons s ss ih => rw [typesAll, ih, List.flatMap_cons]

/-- The types of a set are listed in order if those of each of its selections are. -/
theorem addressed_set (each : ∀ s ∈ ss, Addressed (UsesAt type s) (s.types type)) :
    Addressed (TypeAt type ss) (type :: typesAll type ss) := by
  rw [typesAll_eq_flatMap]
  refine ((Addressed.flatMap ss each).cons type ?_).congr fun path name => typeAt_iff.symm
  rintro path name ⟨i, s, rest, -, rfl, -⟩
  exact List.cons_ne_nil i rest

mutual

/-- The types of a selection are listed in the order of their addresses.  The recursion is that of
selections; a field stands before its set. -/
theorem addressed_types (type : Name) : ∀ s : Selection, Addressed (UsesAt type s) (s.types type)
  | .field ⟨label, definition, arguments, directives, ss⟩ => by
      rw [types]
      have set := addressed_set (addressed_members definition.type.innerName ss)
      -- The field stands at the empty address, and its set below `0`.
      refine ((set.under 0).cons _ ?_).congr fun path name =>
        (usesAt_field (f := ⟨label, definition, arguments, directives, ss⟩)).symm
      rintro path name ⟨rest, rfl, -⟩
      exact List.cons_ne_nil 0 rest
  | .inlineFragment condition _ ss => by
      rw [types]
      exact (addressed_set (addressed_members (condition.getD type) ss)).congr
        fun path name => usesAt_inline.symm
  | .fragmentSpread _ _ => by
      rw [types]
      exact .nil fun path name => not_usesAt_spread

theorem addressed_members (type : Name) :
    ∀ ss : List Selection, ∀ s ∈ ss, Addressed (UsesAt type s) (s.types type)
  | [] => nofun
  | s :: ss => List.forall_mem_cons.mpr ⟨addressed_types type s, addressed_members type ss⟩

end

end Selection

/-! ## Documents -/

/-- A document uses types: its operations those of their variables, and of their selections after them,
and then its fragments those of their selections. -/
inductive Document.TypeAt (document : Document) : List Nat → Name → Prop
  | ofVariable {i j : Nat} {o : Sourced OperationDefinition} {v : VariableDefinition}
      (operation : document.operations[i]? = some o)
      (here : o.definition.variableDefinitions[j]? = some v) :
      TypeAt document [0, i, 0, j] v.type.innerName
  | ofOperation {i : Nat} {o : Sourced OperationDefinition} {path : List Nat} {name : Name}
      (operation : document.operations[i]? = some o)
      (below : Selection.TypeAt o.definition.rootType o.definition.selections path name) :
      TypeAt document (0 :: i :: 1 :: path) name
  | ofFragment {i : Nat} {f : Sourced FragmentDefinition} {path : List Nat} {name : Name}
      (fragment : document.fragments[i]? = some f)
      (below : Selection.TypeAt f.definition.typeCondition f.definition.selections path name) :
      TypeAt document (1 :: i :: path) name

/-- The types of an operation are listed in order, those of its variables first. -/
theorem OperationDefinition.addressed_types (o : OperationDefinition) :
    Addressed (fun path name =>
      (∃ rest, path = 0 :: rest ∧ ∃ j v, o.variableDefinitions[j]? = some v ∧ rest = [j]
        ∧ name = v.type.innerName)
      ∨ ∃ rest, path = 1 :: rest ∧ Selection.TypeAt o.rootType o.selections rest name) o.types := by
  refine ((Addressed.map _ _).under 0).append
    ((Selection.addressed_set (Selection.addressed_members _ _)).under 1) ?_
  rintro _ _ _ _ ⟨rest, rfl, -⟩ ⟨rest', rfl, -⟩
  exact List.cons_lt_cons_iff.mpr (Or.inl Nat.one_pos)

/-- The types of a document are listed in the order of their addresses. -/
theorem Document.addressed_types (document : Document) : Addressed document.TypeAt document.types := by
  have operations := Addressed.flatMap document.operations fun o _ => o.definition.addressed_types
  have fragments := Addressed.flatMap document.fragments fun f _ =>
    Selection.addressed_set (Selection.addressed_members f.definition.typeCondition
      f.definition.selections)
  refine ((operations.under 0).append (fragments.under 1) ?_).congr fun path name => ⟨?_, ?_⟩
  · rintro _ _ _ _ ⟨rest, rfl, -⟩ ⟨rest', rfl, -⟩
    exact List.cons_lt_cons_iff.mpr (Or.inl Nat.one_pos)
  · rintro (⟨_, rfl, i, o, _, found, rfl, ⟨_, rfl, j, v, here, rfl, rfl⟩ | ⟨rest, rfl, below⟩⟩
      | ⟨_, rfl, i, f, rest, found, rfl, below⟩)
    · exact .ofVariable found here
    · exact .ofOperation found below
    · exact .ofFragment found below
  · intro h
    cases h with
    | ofVariable found here =>
        exact Or.inl ⟨_, rfl, _, _, _, found, rfl, Or.inl ⟨_, rfl, _, _, here, rfl, rfl⟩⟩
    | ofOperation found below =>
        exact Or.inl ⟨_, rfl, _, _, _, found, rfl, Or.inr ⟨_, rfl, below⟩⟩
    | ofFragment found below => exact Or.inr ⟨_, rfl, _, _, _, found, rfl, below⟩

/-! ## Views -/

/-- A view has each type that a document uses once, with its kind, in the order of their first uses. -/
structure SchemaView.Lists (view : SchemaView) (schema : Schema) (document : Document) : Prop where
  same : view.schema = schema
  kind : ∀ t ∈ view.referenced, schema.kind? t.name = some t.kind
  nodup : (view.referenced.map ReferencedType.name).Nodup
  mem_iff : ∀ name, name ∈ view.referenced.map ReferencedType.name
    ↔ ∃ path, document.TypeAt path name
  ordered : (view.referenced.map ReferencedType.name).Pairwise fun first second =>
    ∃ path, document.TypeAt path first ∧ ∀ path', document.TypeAt path' second → path < path'

namespace SchemaView

variable {view : SchemaView}

/-- Types are looked up one after the other, up to the first that is unknown. -/
theorem mapM_kind? (schema : Schema) {look : Name → Except BuildError ReferencedType}
    (known : ∀ name kind, schema.kind? name = some kind → look name = .ok ⟨name, kind, false⟩)
    (unknown : ∀ name, schema.kind? name = none → look name = .error (.unknownType name))
    (names : List Name) : names.mapM look
      = match names.find? fun name => (schema.kind? name).isNone with
        | some name => .error (.unknownType name)
        | none => .ok (names.filterMap fun name =>
            (schema.kind? name).map fun kind => ReferencedType.mk name kind false) := by
  induction names with
  | nil => rfl
  | cons name names ih =>
      rw [List.mapM_cons, ih]
      cases found : schema.kind? name with
      | none =>
          rw [unknown name found, List.find?_cons_of_pos (by simp [found])]
          rfl
      | some kind =>
          rw [known name kind found, List.find?_cons_of_neg (by simp [found])]
          cases names.find? fun name => (schema.kind? name).isNone with
          | none => rw [List.filterMap_cons, found]; rfl
          | some name => rfl

/-- A view is made of all types that a document uses, or none is if one of them is unknown. -/
theorem ofDocument_eq (schema : Schema) (document : Document) : ofDocument schema document
    = match document.types.find? fun name => (schema.kind? name).isNone with
      | some name => .error (.unknownType name)
      | none => .ok ⟨schema, document.types.eraseDups.filterMap fun name =>
          (schema.kind? name).map fun kind => ReferencedType.mk name kind false⟩ := by
  rw [ofDocument, mapM_kind? schema ?known ?unknown, find?_eraseDups]
  · cases document.types.find? fun name => (schema.kind? name).isNone <;> rfl
  case known =>
    intro name kind found
    rw [found]
  case unknown =>
    intro name found
    rw [found]

/-- No view is made exactly if a type that the document uses is unknown; reported is the one among these
that is used first. -/
theorem ofDocument_eq_error_iff {e : BuildError} : ofDocument schema document = .error e
    ↔ ∃ path name, e = .unknownType name ∧ document.TypeAt path name ∧ schema.kind? name = none
      ∧ ∀ path' name', document.TypeAt path' name' → schema.kind? name' = none → path ≤ path' := by
  have first := fun name => document.addressed_types.find?_eq_some_iff
    (P := fun name => (schema.kind? name).isNone) (a := name)
  simp only [Option.isNone_iff_eq_none] at first
  rw [ofDocument_eq]
  constructor
  · intro failed
    cases found : document.types.find? fun name => (schema.kind? name).isNone with
    | none =>
        rw [found] at failed
        cases failed
    | some name =>
        rw [found] at failed
        cases failed
        obtain ⟨path, uses, unknown, least⟩ := (first name).mp found
        exact ⟨path, name, rfl, uses, unknown, least⟩
  · rintro ⟨path, name, rfl, uses, unknown, least⟩
    rw [(first name).mpr ⟨path, uses, unknown, least⟩]

/-- A view that is made has the types that the document uses. -/
theorem lists_of_ofDocument (h : ofDocument schema document = .ok view) :
    view.Lists schema document := by
  rw [ofDocument_eq] at h
  cases found : document.types.find? fun name => (schema.kind? name).isNone with
  | some name =>
      rw [found] at h
      cases h
  | none =>
      rw [found] at h
      cases h
      have known : ∀ name ∈ document.types, ∃ kind, schema.kind? name = some kind := fun name used =>
        Option.ne_none_iff_exists'.mp (by simpa using List.find?_eq_none.mp found name used)
      have names : (document.types.eraseDups.filterMap fun name =>
          (schema.kind? name).map fun kind => ReferencedType.mk name kind false).map
            ReferencedType.name = document.types.eraseDups := by
        have each : ∀ name ∈ document.types.eraseDups, ((schema.kind? name).map fun kind =>
            ReferencedType.mk name kind false).map ReferencedType.name = some name := by
          intro name mem
          obtain ⟨kind, found⟩ := known name (List.mem_eraseDups.mp mem)
          rw [found]
          rfl
        -- All types are known, so that none is left out.
        rw [List.map_filterMap, List.filterMap_congr each, List.filterMap_some]
      refine ⟨rfl, ?_, ?_, ?_, ?_⟩
      · intro t mem
        obtain ⟨name, -, made⟩ := List.mem_filterMap.mp mem
        obtain ⟨kind, found, rfl⟩ := Option.map_eq_some_iff.mp made
        exact found
      · rw [names]
        exact nodup_eraseDups _
      · intro name
        rw [names, List.mem_eraseDups, document.addressed_types.mem_iff]
      · rw [names]
        exact document.addressed_types.pairwise_eraseDups

/-- No type is marked before the roots are. -/
theorem unmarked_of_ofDocument (h : ofDocument schema document = .ok view) :
    ∀ t ∈ view.referenced, t.isRootFieldType = false := by
  rw [ofDocument_eq] at h
  split at h
  · cases h
  · cases h
    intro t mem
    obtain ⟨name, -, made⟩ := List.mem_filterMap.mp mem
    obtain ⟨kind, -, rfl⟩ := Option.map_eq_some_iff.mp made
    rfl

/-! ## Root types -/

theorem names_markingRoots (view : SchemaView) (roots : List Name) :
    (view.markingRoots roots).referenced.map ReferencedType.name
      = view.referenced.map ReferencedType.name := by
  simp [markingRoots]

/-- Marking roots changes neither the types that a view has nor their order. -/
theorem Lists.markingRoots (h : view.Lists schema document) (roots : List Name) :
    (view.markingRoots roots).Lists schema document := by
  refine ⟨h.same, ?_, ?_, ?_, ?_⟩
  · intro t mem
    obtain ⟨u, memU, rfl⟩ := List.mem_map.mp mem
    exact h.kind u memU
  all_goals rw [names_markingRoots]
  · exact h.nodup
  · exact h.mem_iff
  · exact h.ordered

/-- In a view that has no root type marked yet, those are marked that the document has selections on and
the schema has as roots. -/
theorem isRootFieldType_markingRoots (unmarked : ∀ t ∈ view.referenced, t.isRootFieldType = false)
    {roots : List Name} {name : Name} : (view.markingRoots roots).isRootFieldType name = true
      ↔ name ∈ view.referenced.map ReferencedType.name ∧ name ∈ roots
        ∧ name ∈ view.schema.rootTypes := by
  rw [isRootFieldType, referenced?, SchemaView.markingRoots, List.find?_map]
  change ((view.referenced.find? fun t => t.name == name).map _).any _ = true ↔ _
  rw [Option.any_map]
  cases found : view.referenced.find? fun t => t.name == name with
  | none =>
      have absent : name ∉ view.referenced.map ReferencedType.name := by
        rintro listed
        obtain ⟨t, mem, rfl⟩ := List.mem_map.mp listed
        simpa using List.find?_eq_none.mp found t mem
      simp [absent]
  | some t =>
      have mem := List.mem_of_find?_eq_some found
      obtain rfl : t.name = name := by simpa using List.find?_some found
      have listed : t.name ∈ view.referenced.map ReferencedType.name := List.mem_map_of_mem mem
      simp [unmarked t mem, listed]

end SchemaView

/-- The root types of a schema are those that it has for queries, mutations and subscriptions. -/
theorem Schema.mem_rootTypes {name : Name} :
    name ∈ schema.rootTypes ↔ ∃ kind, schema.root? kind = some name := by
  have all : ∀ kind : OperationKind, kind ∈ OperationKind.all := by
    rintro (_ | _ | _) <;> decide
  rw [rootTypes, List.mem_eraseDups, List.mem_filterMap]
  exact exists_congr fun kind => and_iff_right (all kind)

/-- The types that a document selects on are the root types of its definitions. -/
theorem Document.mem_rootTypes {name : Name} :
    name ∈ document.rootTypes ↔ ∃ d, document.Defines d ∧ d.rootType = name := by
  rw [rootTypes, List.mem_append, List.mem_map, List.mem_map]
  constructor
  · rintro (⟨o, mem, rfl⟩ | ⟨f, mem, rfl⟩)
    · exact ⟨.operation o.definition, ⟨o.text, mem⟩, rfl⟩
    · exact ⟨.fragment f.definition, ⟨f.text, mem⟩, rfl⟩
  · rintro ⟨o | f, ⟨text, mem⟩, rfl⟩
    · exact Or.inl ⟨_, mem, rfl⟩
    · exact Or.inr ⟨_, mem, rfl⟩

/-- The root type of a definition is used where its selections begin. -/
theorem Document.Defines.exists_typeAt {d : ExecutableDefinition} (h : document.Defines d) :
    ∃ path, document.TypeAt path d.rootType := by
  cases d with
  | operation o =>
      obtain ⟨text, mem⟩ := h
      obtain ⟨i, here⟩ := List.mem_iff_getElem?.mp mem
      exact ⟨_, .ofOperation here .set⟩
  | fragment f =>
      obtain ⟨text, mem⟩ := h
      obtain ⟨i, here⟩ := List.mem_iff_getElem?.mp mem
      exact ⟨_, .ofFragment here .set⟩

end SelectionGraph
