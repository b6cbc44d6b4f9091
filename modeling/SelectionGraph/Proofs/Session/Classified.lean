import SelectionGraph.Proofs.Direct.RootTypes
import SelectionGraph.Proofs.Schema.Referenced
import SelectionGraph.Proofs.Session.Sharing

/-!
# Classified — types that are used, root types among them, and where these are noted

* `Session.start_eq_error_iff`   — a session begins unless there is no view of its document;
* `Session.isRootFieldType_iff`  — it marks the root types that definitions select on;
* `referenced_types_are_exact`   — the types of a view, the marks, and the notes of all places.
-/

namespace SelectionGraph

variable {schema : Schema} {document : Document} {next : Nat} {s : Session}

namespace Session

theorem start_eq_error_iff {e : BuildError} :
    start schema document next = .error e ↔ SchemaView.ofDocument schema document = .error e := by
  rw [start]
  cases SchemaView.ofDocument schema document with
  | error e' => exact ⟨fun h => by cases h; rfl, fun h => by cases h; rfl⟩
  | ok view => exact ⟨nofun, nofun⟩

/-- A session has the view of its document, with its roots marked. -/
theorem exists_view_of_start (started : start schema document next = .ok s) :
    ∃ view, SchemaView.ofDocument schema document = .ok view
      ∧ s.view = view.markingRoots document.rootTypes := by
  obtain ⟨view, made, same⟩ := bind_eq_ok.mp started
  cases same
  exact ⟨view, made, rfl⟩

theorem lists_of_start (started : start schema document next = .ok s) :
    s.view.Lists schema document := by
  obtain ⟨view, made, same⟩ := exists_view_of_start started
  rw [same]
  exact (SchemaView.lists_of_ofDocument made).markingRoots _

/-- A type is marked exactly if the schema has it as the root type of some kind of operation and a
definition of the document selects on it. -/
theorem isRootFieldType_iff (started : start schema document next = .ok s) {type : Name} :
    s.view.isRootFieldType type = true
      ↔ (∃ kind, schema.root? kind = some type) ∧ ∃ d, document.Defines d ∧ d.rootType = type := by
  obtain ⟨view, made, same⟩ := exists_view_of_start started
  have lists := SchemaView.lists_of_ofDocument made
  rw [same, SchemaView.isRootFieldType_markingRoots (SchemaView.unmarked_of_ofDocument made),
    lists.same, Schema.mem_rootTypes, Document.mem_rootTypes]
  constructor
  · rintro ⟨-, selected, root⟩
    exact ⟨root, selected⟩
  -- A definition uses the type that it selects on, so that the view has it.
  · rintro ⟨root, d, defined, rfl⟩
    exact ⟨(lists.mem_iff _).mpr defined.exists_typeAt, ⟨d, defined, rfl⟩, root⟩

end Session

/-- No view of a document is made exactly if it uses a type that the schema does not have, and of these
the one that is used first is reported; else the view lists the types that the document uses, each once,
with their kinds and in the order of their first uses.  A session begins exactly if there is a view.  It
has the same types, and marks those that the schema has as roots and a definition selects on.  In every
definition that it answers with, after any calls, each selection set, inline fragment and spread notes
whether the type selected on there is marked. -/
theorem referenced_types_are_exact (schema : Schema) (document : Document) (next : Nat) :
    (∀ e, SchemaView.ofDocument schema document = .error e
      ↔ ∃ path name, e = .unknownType name ∧ document.TypeAt path name ∧ schema.kind? name = none
        ∧ ∀ path' name', document.TypeAt path' name' → schema.kind? name' = none → path ≤ path')
    ∧ (∀ view, SchemaView.ofDocument schema document = .ok view → view.Lists schema document)
    ∧ (∀ e, Session.start schema document next = .error e
      ↔ SchemaView.ofDocument schema document = .error e)
    ∧ ∀ s, Session.start schema document next = .ok s →
      s.view.Lists schema document
      ∧ (∀ type, s.view.isRootFieldType type = true
        ↔ (∃ kind, schema.root? kind = some type) ∧ ∃ d, document.Defines d ∧ d.rootType = type)
      ∧ ∀ calls b, s.Gives calls b → ∀ set, b.rootField.selectionSet.Within set →
        set.typeInfo.isRootFieldType = s.view.isRootFieldType set.typeInfo.parentType
        ∧ (∀ inline ∈ set.direct.inlineFragments, inline.typeInfo.isRootFieldType
          = s.view.isRootFieldType inline.typeInfo.parentType)
        ∧ ∀ spread ∈ set.direct.namedFragments, spread.typeInfo.isRootFieldType
          = s.view.isRootFieldType spread.typeInfo.parentType := by
  refine ⟨fun e => SchemaView.ofDocument_eq_error_iff, fun view => SchemaView.lists_of_ofDocument,
    fun e => Session.start_eq_error_iff, fun s started => ⟨Session.lists_of_start started,
      fun type => Session.isRootFieldType_iff started, fun calls b gives set within => ?_⟩⟩
  obtain ⟨⟨_, _, _, _, library, walked⟩, -⟩ := gives.walked (Session.Reachable.start started).sound
  obtain ⟨own, spreads⟩ := walked.classified library within
  exact ⟨own, fun inline mem => (walked.classified library (within.inline mem)).1, spreads⟩

/-- In `query ($name: String) { ...Start }`, with `Start` on the root type, that type comes after the one of
the variable and is marked.  The spread is on it and says so. -/
theorem a_spread_on_the_root_type_is_classified :
    let start : FragmentDefinition :=
      ⟨"Start", "Query", [], [.field (Heroes.heroField "hero" [] [.field Heroes.nameField])]⟩
    let o : OperationDefinition :=
      ⟨.query, none, [⟨"name", .named "String", none, []⟩], [], "Query", [.fragmentSpread "Start" []]⟩
    let document : Document := ⟨[⟨o, none⟩], [⟨start, none⟩]⟩
    ∃ (s : Session) (b : BuiltSelections) (x : NamedSpread),
      Session.start Heroes.schema document 0 = .ok s
      ∧ s.view.referenced.map ReferencedType.name = ["String", "Query", "Hero"]
      ∧ s.view.isRootFieldType "Query" = true ∧ s.Gives [.all] b
      ∧ x ∈ b.rootField.selectionSet.direct.namedFragments ∧ x.typeInfo.parentType = "Query"
      ∧ x.typeInfo.isRootFieldType = true := by
  intro start o document
  obtain ⟨s, started, check⟩ := (Option.any_eq_true _ _).mp
    (show ((Session.start Heroes.schema document 0).toOption.any fun s =>
      s.view.referenced.map ReferencedType.name == ["String", "Query", "Hero"]
        && s.buildAll.1.toOption.any fun os => os.any fun o =>
          (o.built.rootField.selectionSet.direct.namedFragment? "Start").any fun x =>
            x.typeInfo.parentType == "Query") = true by decide +kernel)
  obtain ⟨names, check⟩ := Bool.and_eq_true_iff.mp check
  obtain ⟨os, answer, check⟩ := (Option.any_eq_true _ _).mp check
  obtain ⟨b, mem, check⟩ := List.any_eq_true.mp check
  obtain ⟨x, found, onQuery⟩ := (Option.any_eq_true _ _).mp check
  have started := eq_ok_of_toOption started
  have gives : s.Gives [.all] b.built := by
    refine ⟨[], .all, [], rfl, ?_⟩
    change Answer.Holds (.operations s.buildAll.1) b.built
    rw [eq_ok_of_toOption answer]
    exact .operations mem
  have memX := List.mem_of_find?_eq_some found
  obtain ⟨-, -, -, ofSession⟩ := referenced_types_are_exact Heroes.schema document 0
  obtain ⟨-, marked, classified⟩ := ofSession s started
  have query : s.view.isRootFieldType "Query" = true :=
    (marked "Query").mpr ⟨⟨.query, rfl⟩, .operation o, ⟨none, List.mem_cons_self⟩, rfl⟩
  have noted := (classified _ b.built gives _ .self).2.2 x memX
  rw [eq_of_beq onQuery, query] at noted
  exact ⟨s, b.built, x, started, eq_of_beq names, query, gives, memX, eq_of_beq onQuery, noted⟩

end SelectionGraph
