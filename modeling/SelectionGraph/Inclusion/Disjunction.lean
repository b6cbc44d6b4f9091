import SelectionGraph.Inclusion.Conjunction

/-!
# Disjunction — conjunctions of which one has to hold

A field that is selected in several places is included when the conditions of one place hold.

- `Disjunction`        : conjunctions, never none, no two of them equal;
- `insert`, `union`    : further conjunctions, those that are there already left out;
- `Inclusion`          : when a selection is included: always, or when a disjunction holds;
- `Inclusion.merge`    : a selection that is reached in two ways;
- `Inclusion.restrict` : a selection that is reached under a guard.

Two disjunctions are equal (`==`) when they have the same members, in whatever order.
-/

namespace SelectionGraph

/-- Conjunctions of which one has to hold, in the order they were first added. -/
structure Disjunction where
  members : List Conjunction
  members_ne_nil : members ≠ []
  distinct : members.Pairwise fun c d => (c == d) = false

namespace Disjunction

/-! ## Members -/

def contains (d : Disjunction) (c : Conjunction) : Bool :=
  d.members.any (· == c)

def same (d e : Disjunction) : Bool :=
  d.members.length == e.members.length && d.members.all e.contains

instance : BEq Disjunction := ⟨same⟩

/-- The hashes of the members in ascending order, which does not depend on the order they were added
in. -/
def sortedHashes (memberHash : Conjunction → UInt64) (d : Disjunction) : List UInt64 :=
  (d.members.map memberHash).mergeSort fun a b => decide (a ≤ b)

/-- The parts of a disjunction, whose members are hashed by themselves.  Equal disjunctions are hashed
alike. -/
def hashParts (digest : List HashPart → UInt64) (d : Disjunction) : List HashPart :=
  Hashed.hashParts (d.sortedHashes fun c => digest (Hashed.hashParts c))

instance : Hashable Disjunction := ⟨fun d => hash (d.hashParts hash)⟩

def size (d : Disjunction) : Nat :=
  d.members.length

def single (c : Conjunction) : Disjunction :=
  ⟨[c], List.cons_ne_nil c [], List.pairwise_singleton _ c⟩

/-- The disjunction with one more member, unless it is there already. -/
def insert (d : Disjunction) (c : Conjunction) : Disjunction :=
  if h : d.contains c = true then d
  else
    { members := d.members ++ [c]
      members_ne_nil := by simp
      distinct := by
        refine List.pairwise_append.mpr ⟨d.distinct, List.pairwise_singleton _ c, ?_⟩
        intro m hm n hn
        rw [List.mem_singleton.mp hn]
        simp only [contains, List.any_eq_true, not_exists, not_and, Bool.not_eq_true] at h
        exact h m hm }

/-- The disjunction with the members of both, those of the first in front. -/
def union (d e : Disjunction) : Disjunction :=
  e.members.foldl insert d

/-- The disjunction of some conjunctions, if there are any. -/
def ofList? : List Conjunction → Option Disjunction
  | [] => none
  | c :: rest => some (rest.foldl insert (single c))

/-! ## Texts -/

def render (d : Disjunction) : String :=
  " || ".intercalate (d.members.map fun c => "(" ++ c.render ++ ")")

/-- The directives that require a disjunction: those of a single member, or one directive over the
whole expression. -/
def directiveText (d : Disjunction) : String :=
  match d.members with
  | [only] => only.directiveText
  | _ => " @include(if: " ++ d.render ++ ")"

def toJson (d : Disjunction) : Json :=
  .array (d.members.map Conjunction.toJson)

end Disjunction

/-! ## Inclusion -/

/-- When a selection is included. -/
inductive Inclusion
  | always
  | when (conditions : Disjunction)
  deriving BEq

namespace Inclusion

/-- The disjunction of a selection that is not always included. -/
def disjunction? : Inclusion → Option Disjunction
  | always => none
  | when d => some d

/-- When a selection that is reached in two ways is included: one way that always leads there is
enough. -/
def merge : Inclusion → Inclusion → Inclusion
  | when d, when e => when (d.union e)
  | _, _ => always

/-- When a selection that is reached only under a guard is included; `none` if the two never hold
together.  Each member is put together with each of the guard's, and pairs that contradict each
other are dropped. -/
def restrict (inclusion : Inclusion) (guard : Disjunction) : Option Inclusion :=
  match inclusion with
  | always => some (when guard)
  | when d =>
      -- Every member with every one of the guard's, in this order.
      let verdicts := d.members.flatMap fun c => guard.members.map c.merge
      if verdicts.contains .included then some always
      else (Disjunction.ofList? (verdicts.filterMap Verdict.conjunction?)).map when

/-- The same, where the guard may hold always. -/
def under (inclusion guard : Inclusion) : Option Inclusion :=
  match guard with
  | always => some inclusion
  | when d => inclusion.restrict d

/-- The directives that require an inclusion; none for a selection that is always included. -/
def directiveText : Inclusion → String
  | always => ""
  | when d => d.directiveText

def toJson : Inclusion → Json
  | always => .null
  | when d => d.toJson

end Inclusion
end SelectionGraph
