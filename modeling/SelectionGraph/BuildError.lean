import SelectionGraph.Language.LiteralText

/-!
# BuildError — why a build fails

- `ArgumentFault` : what can be wrong with the argument of a directive;
- `EntityLookup`  : what an entity is looked up for;
- `BuildError`    : the causes of a failure;
- `message`       : the wording of each.

The causes after `invalidArgument` say that the selections of one definition contradict each other
or that the library lost track of an entity; they are worded as internal errors.
-/

namespace SelectionGraph

/-- What is wrong with a directive's argument. -/
inductive ArgumentFault
  | missing
  | notCondition (value : Literal)
  deriving DecidableEq, Repr

/-- What an entity is looked up for: as one of the entities of a source, or to select on it.  One that
is not there is reported in these words. -/
inductive EntityLookup
  | inSource (source : String)
  | toSelectOn
  deriving DecidableEq, Repr

/-- Why an operation or fragment cannot be built. -/
inductive BuildError
  | cyclicFragment (fragment : Name) (chain : List Name)
  | unknownFragment (name : Name)
  | unknownOperation (name : Option Name)
  | unknownType (name : Name)
  | invalidArgument (directive argument : Name) (fault : ArgumentFault)
  | fieldConflict (key : Name) (held added : TypeRef)
  | entityConflict (key : Name)
  | unknownEntity (index : Nat) (lookup : EntityLookup)
  | rootTypeConflict (location : String) (held added : Name)
  deriving DecidableEq, Repr

def ArgumentFault.message : ArgumentFault → String
  | missing => "missing argument"
  | notCondition value => "expected boolean or variable, got " ++ value.indented 0

def EntityLookup.message : EntityLookup → String
  | inSource source => "in " ++ source
  | toSelectOn => "to select on"

namespace BuildError

def quote (words : String) : String :=
  "\"" ++ words ++ "\""

def message : BuildError → String
  | cyclicFragment fragment chain =>
      "fragment " ++ quote fragment ++ " references itself: " ++ " -> ".intercalate chain
  | unknownFragment name => "unknown fragment " ++ quote name
  | unknownOperation name => "unknown operation named " ++ name.getD "<anonymous>"
  | unknownType name => "unknown type " ++ quote name
  | invalidArgument directive argument fault =>
      "invalid `" ++ argument ++ "` argument on @" ++ directive ++ ": " ++ fault.message
  | fieldConflict key held added =>
      "internal error: cannot merge field " ++ quote key ++ " of type " ++ held.render
        ++ " with field of type " ++ added.render
  | entityConflict key =>
      "internal error: field " ++ quote key ++ " selects on two different entities"
  | unknownEntity index lookup =>
      "internal error: no entity #" ++ toString index ++ " " ++ lookup.message
  | rootTypeConflict location held added =>
      "internal error: entity at " ++ location ++ " is selected as both " ++ held ++ " and " ++ added

end BuildError
end SelectionGraph
