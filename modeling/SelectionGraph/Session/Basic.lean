import SelectionGraph.Document.Text
import SelectionGraph.Session.Identifier
import SelectionGraph.Session.Walk

/-!
# Session — building the definitions of a document

- `Build.fragmentNamed` : the fragment of a name, built when it is first asked for;
- `Build.operation`     : an operation;
- `Session`             : a document, the view of its schema, and the progress made;
- `Session.start`       : a session at its beginning;
- `buildOperation`, `buildOperationNamed`, `buildAll`, `buildFragment` : its builds.

A session builds each fragment once and gives the same build to all that use it.  A fragment that
is spread while it is being built itself is an error, with the chain of spreads that led back to it.
-/

namespace SelectionGraph
namespace Build

/-! ## Fragments -/

/-- The number of fragments of a document that are not in progress. -/
def waiting (document : Document) (inProgress : List Name) : Nat :=
  (document.fragments.filter fun f => !inProgress.contains f.definition.name).length

/-- A stronger filter keeps fewer members, if it drops one that the weaker filter keeps. -/
theorem length_filter_lt {α : Type} {p q : α → Bool} (weaker : ∀ a, q a = true → p a = true)
    {a : α} (kept : p a = true) (dropped : q a = false) :
    ∀ {l : List α}, a ∈ l → (l.filter q).length < (l.filter p).length
  | b :: l, mem => by
      have rest : (l.filter q).length ≤ (l.filter p).length := by
        rw [← List.countP_eq_length_filter, ← List.countP_eq_length_filter]
        exact List.countP_mono_left fun c _ => weaker c
      rcases List.mem_cons.mp mem with rfl | later
      · rw [List.filter_cons_of_neg (by simp [dropped]), List.filter_cons_of_pos kept]
        exact Nat.lt_succ_of_le rest
      · have less := length_filter_lt weaker kept dropped later
        by_cases hq : q b = true
        · rw [List.filter_cons_of_pos hq, List.filter_cons_of_pos (weaker b hq)]
          exact Nat.succ_lt_succ less
        · rw [List.filter_cons_of_neg hq, List.filter_cons]
          split
          · exact Nat.lt_succ_of_lt less
          · exact less

/-- Once a fragment of the document is in progress, fewer are waiting. -/
theorem waiting_lt {document : Document} {inProgress : List Name} {name : Name}
    {f : Sourced FragmentDefinition} (fresh : ¬ name ∈ inProgress)
    (found : document.fragment? name = some f) :
    waiting document (inProgress ++ [name]) < waiting document inProgress := by
  have named : f.definition.name = name := by simpa using List.find?_some found
  refine length_filter_lt ?_ ?_ ?_ (List.mem_of_find?_eq_some found)
  · intro g h
    simp_all
  · simp_all
  · simp_all

/-- The chain of fragments in progress from the first spread of `name` back to it. -/
def cycle (inProgress : List Name) (name : Name) : List Name :=
  inProgress.dropWhile (· != name) ++ [name]

/-- The text of a definition, or what it is written back as where that is not known. -/
def sourceOf {α : Type} (written : α → String) (s : Sourced α) : String :=
  s.text.getD (written s.definition)

/-- The fragment of a name, while the fragments `inProgress` are being built, outermost first. -/
def fragmentNamed (view : SchemaView) (document : Document) (inProgress : List Name) (name : Name) :
    Build NamedFragment := do
  match (← get).fragments.find? fun f => f.name == name with
  | some built => return built
  | none =>
      -- A fragment in progress is not built yet, so a spread of it leads in a circle.
      if _ : name ∈ inProgress then throw (.cyclicFragment name (cycle inProgress name))
      else
        match _ : document.fragment? name with
        | none => throw (.unknownFragment name)
        | some f =>
            let nested := fun spread => fragmentNamed view document (inProgress ++ [name]) spread
            let built ← selections view nested (.fragment f.definition) name f.definition.selections
            let fragment : NamedFragment :=
              ⟨f.definition, built, sourceOf FragmentDefinition.text f⟩
            modify fun progress =>
              { progress with fragments := progress.fragments ++ [fragment] }
            return fragment
termination_by waiting document inProgress
decreasing_by exact waiting_lt ‹¬ name ∈ inProgress› ‹document.fragment? name = some _›

/-! ## Operations -/

/-- The name of the field at the root of an operation. -/
def operationRoot : Name :=
  "data"

def operation (view : SchemaView) (document : Document) (o : Sourced OperationDefinition) :
    Build Operation := do
  let built ← selections view (fragmentNamed view document []) (.operation o.definition)
    operationRoot o.definition.selections
  return ⟨o.definition, built, sourceOf OperationDefinition.text o⟩

end Build

/-! ## Sessions -/

/-- A document under construction. -/
structure Session where
  view : SchemaView
  document : Document
  progress : Progress

namespace Session

/-- A session at its beginning, whose definitions get identities from `nextDefinition` on.  It fails
at the first type that the document uses and the schema does not have. -/
def start (schema : Schema) (document : Document) (nextDefinition : Nat) :
    Except BuildError Session := do
  let view ← SchemaView.ofDocument schema document
  return ⟨view.markingRoots document.rootTypes, document, ⟨.empty, [], nextDefinition⟩⟩

def run {α : Type} (s : Session) (step : Build α) : Except BuildError α × Session :=
  let (result, progress) := StateT.run (ExceptT.run step) s.progress
  (result, { s with progress })

def buildOperation (s : Session) (o : Sourced OperationDefinition) :
    Except BuildError Operation × Session :=
  s.run (Build.operation s.view s.document o)

/-- Builds an operation from elsewhere, whose source text the session does not know.  The fragments
it spreads are those of the session's document. -/
def buildForeign (s : Session) (o : OperationDefinition) : Except BuildError Operation × Session :=
  s.buildOperation ⟨o, none⟩

/-- Builds the operation of a name, or without a name the only one. -/
def buildOperationNamed (s : Session) (name : Option Name) :
    Except BuildError Operation × Session :=
  match s.document.operation? name with
  | some o => s.buildOperation o
  | none => (.error (.unknownOperation name), s)

/-- Builds all operations of the document, in order, up to the first failure. -/
def buildAll (s : Session) : Except BuildError (List Operation) × Session :=
  s.run (s.document.operations.mapM (Build.operation s.view s.document))

/-- Builds the fragment of a name, unless that is done already. -/
def buildFragment (s : Session) (name : Name) : Except BuildError NamedFragment × Session :=
  s.run (Build.fragmentNamed s.view s.document [] name)

/-- The fragment of a name, if it is built. -/
def builtFragment? (s : Session) (name : Name) : Option NamedFragment :=
  s.progress.fragments.find? fun f => f.name == name

end Session
end SelectionGraph
