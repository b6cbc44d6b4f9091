import SelectionGraph.Proofs.Keys.Coherent

/-!
# Sharing — keys that share their storage

A conjunction stands at an address, and so does each step of a path, with the path before it.  Copies
share what they were made from.  What stands at one address is one value, so addresses are compared
first, and what stands there only if they differ.  This never changes the answer.

* `Shared`               — the value at an address;
* `Shared.coherent`      — values at addresses are equal and hashed as the values are;
* `LinkedPath`           — a path as its last step, linked to the path before it;
* `LinkedPath.path_append` — appending to it appends to the path it stands for;
* `LinkedPath.In`        — paths whose steps stand in the memory;
* `LinkedPath.same_eq`   — they are equal exactly if the paths are, wherever their steps stand;
* `Stored.coherent`      — and are hashed as the paths are;
* `StoredScopes`, `StoredLocation` — scope paths and locations over such values.

The memory is that of one moment: an address may stand for something else before and after.
-/

namespace SelectionGraph

/-! ## Values at addresses -/

/-- The value that stands at an address. -/
structure Shared {α : Type} (memory : Nat → α) where
  address : Nat

namespace Shared

variable {α μ : Type} {memory : Nat → α} {meaning : α → μ}

def value (a : Shared memory) : α :=
  memory a.address

/-- One address is enough; otherwise the values are compared. -/
instance [BEq α] : BEq (Shared memory) := ⟨fun a b => a.address == b.address || a.value == b.value⟩

instance [Hashed α] : Hashed (Shared memory) := ⟨fun a => hashParts a.value⟩

/-- Comparing addresses first does not change the answer. -/
theorem beq_eq [BEq α] [ReflBEq α] (a b : Shared memory) : (a == b) = (a.value == b.value) := by
  change (a.address == b.address || a.value == b.value) = _
  cases same : a.address == b.address with
  | false => rfl
  | true =>
    have value : a.value = b.value := congrArg memory (beq_iff_eq.mp same)
    rw [value, BEq.rfl, Bool.true_or]

theorem coherent [BEq α] [Hashed α] (h : Coherent α meaning) :
    Coherent (Shared memory) fun a => meaning a.value := by
  have : ReflBEq α := ⟨h.equivalence.refl _⟩
  exact h.of_eq beq_eq fun _ => rfl

end Shared

/-! ## Conjunctions at addresses -/

/-- The scopes of a path, whose conditions stand at addresses. -/
abbrev StoredScopes (memory : Nat → Conjunction) : Type :=
  List (Name × Option (Shared memory))

/-- The members of a disjunction, which stand at addresses. -/
abbrev StoredMembers (memory : Nat → Conjunction) : Type :=
  List (Shared memory)

section Conditions

variable {memory : Nat → Conjunction}

/-- The path of these scopes. -/
def StoredScopes.path (scopes : StoredScopes memory) : ScopePath :=
  ⟨scopes.map fun s => ⟨s.1, s.2.map Shared.value⟩⟩

theorem StoredScopes.coherent : Coherent (StoredScopes memory) fun scopes => scopes.path.meaning := by
  have conditions : Coherent (Shared memory) fun a => a.value.polarity? :=
    Shared.coherent Conjunction.coherent
  have scope : Coherent (Name × Option (Shared memory))
      (Prod.map id (Option.map fun a => a.value.polarity?)) :=
    Coherent.of_lawful.prod conditions.option
  have meaning : (fun scopes : StoredScopes memory => scopes.path.meaning)
      = List.map (Prod.map id (Option.map fun a => a.value.polarity?)) := by
    funext scopes
    rw [ScopePath.meaning, path, List.map_map]
    refine List.map_congr_left fun s _ => ?_
    exact congrArg (Prod.mk s.1) (Option.map_map _ _ _)
  rw [meaning]
  exact scope.list

/-- Whether two disjunctions have the same members, which are compared at their addresses. -/
def StoredMembers.same (l m : StoredMembers memory) : Bool :=
  l.length == m.length && l.all fun a => m.any (· == a)

/-- Disjunctions are equal exactly if members that stand at addresses are. -/
theorem StoredMembers.same_eq {l m : StoredMembers memory} {d e : Disjunction}
    (left : d.members = l.map Shared.value) (right : e.members = m.map Shared.value) :
    l.same m = (d == e) := by
  change _ = (d.members.length == e.members.length && d.members.all fun c => e.members.any (· == c))
  rw [same, left, right, List.length_map, List.length_map, List.all_map]
  simp only [Shared.beq_eq, Function.comp_def, List.any_map]

end Conditions

/-! ## Linked paths -/

/-- A path as it is stored: the root, or a step at an address, with the path before it and the number of
steps so far. -/
inductive LinkedPath
  | root
  | step (address : Nat) (component : PathComponent) (before : LinkedPath) (size : Nat)

namespace LinkedPath

variable {memory : Nat → LinkedPath} {p q : LinkedPath}

def size : LinkedPath → Nat
  | root => 0
  | step _ _ _ size => size

/-- The steps, from the last to the first. -/
def reversed : LinkedPath → List PathComponent
  | root => []
  | step _ component before _ => component :: before.reversed

/-- The path with one more step, which is stored at an address. -/
def append (p : LinkedPath) (address : Nat) (component : PathComponent) : LinkedPath :=
  step address component p (p.size + 1)

/-- The path that is stored. -/
def path (p : LinkedPath) : FieldPath :=
  ⟨p.reversed.reverse⟩

/-- Whether the last steps of two paths stand at one address. -/
def sameStep : LinkedPath → LinkedPath → Bool
  | step a _ _ _, step b _ _ _ => a == b
  | _, _ => false

/-- One last step is enough; otherwise the sizes are compared, and the steps from the last to the
first. -/
def same (p q : LinkedPath) : Bool :=
  p.sameStep q || (p.size == q.size && p.reversed == q.reversed)

/-- The size, and then the steps from the last to the first. -/
def hashParts (p : LinkedPath) : List HashPart :=
  .size p.size :: p.reversed.flatMap Hashed.hashParts

/-- The steps of a path stand in the memory, and each was appended to the path before it. -/
inductive In (memory : Nat → LinkedPath) : LinkedPath → Prop
  | root : In memory root
  | append {p : LinkedPath} {address : Nat} {component : PathComponent} (before : In memory p)
      (held : memory address = p.append address component) : In memory (p.append address component)

theorem path_append (p : LinkedPath) (address : Nat) (component : PathComponent) :
    (p.append address component).path = p.path.append component := by
  rw [path, append, reversed, List.reverse_cons]
  rfl

theorem path_eq_iff : p.path = q.path ↔ p.reversed = q.reversed :=
  ⟨fun same => List.reverse_injective (congrArg FieldPath.components same), fun same => by
    rw [path, same, path]⟩

/-- The size counts the steps. -/
theorem In.size_eq (h : In memory p) : p.size = p.reversed.length := by
  induction h with
  | root => rfl
  | append _ _ ih =>
    rw [LinkedPath.append, reversed, List.length_cons, ← ih]
    rfl

/-- What stands at one address is one path. -/
theorem In.eq_of_sameStep (h : In memory p) (h' : In memory q) (same : p.sameStep q = true) :
    p = q := by
  cases h with
  | root => cases same
  | append _ held =>
    cases h' with
    | root => cases same
    | append _ held' =>
      -- Both are what stands at the address of their last steps.
      rw [← held, ← held', beq_iff_eq.mp same]

/-- Paths in one memory are equal exactly if they have the same steps, wherever these stand. -/
theorem same_eq (h : In memory p) (h' : In memory q) : p.same q = (p.path == q.path) := by
  rw [same]
  cases shared : p.sameStep q with
  | true => rw [h.eq_of_sameStep h' shared, BEq.rfl, Bool.true_or, BEq.rfl]
  | false =>
    rw [Bool.false_or, Bool.eq_iff_iff, Bool.and_eq_true, beq_iff_eq, beq_iff_eq, beq_iff_eq,
      path_eq_iff, h.size_eq, h'.size_eq]
    exact ⟨And.right, fun steps => ⟨congrArg List.length steps, steps⟩⟩

theorem hashParts_eq (h : In memory p) : p.hashParts = Hashed.hashParts p.path := by
  change _ = HashPart.size p.reversed.reverse.reverse.length ::
    p.reversed.reverse.reverse.flatMap Hashed.hashParts
  rw [List.reverse_reverse, ← h.size_eq]
  rfl

end LinkedPath

/-- A linked path in the memory. -/
def Stored (memory : Nat → LinkedPath) : Type :=
  {p : LinkedPath // p.In memory}

namespace Stored

variable {memory : Nat → LinkedPath}

instance : BEq (Stored memory) := ⟨fun p q => p.1.same q.1⟩

instance : Hashed (Stored memory) := ⟨fun p => p.1.hashParts⟩

def root : Stored memory :=
  ⟨.root, .root⟩

/-- The path that is stored. -/
def path (p : Stored memory) : FieldPath :=
  p.1.path

theorem coherent : Coherent (Stored memory) fun p => p.path.components :=
  FieldPath.coherent.of_eq (fun p q => LinkedPath.same_eq p.2 q.2) fun p =>
    LinkedPath.hashParts_eq p.2

end Stored

/-- A location whose path, if it has one, is linked. -/
structure StoredLocation (memory : Nat → LinkedPath) where
  source : SourceDefinition
  fieldPath : Option (Stored memory)

namespace StoredLocation

variable {memory : Nat → LinkedPath}

def path (l : StoredLocation memory) : Stored memory :=
  l.fieldPath.getD .root

instance : BEq (StoredLocation memory) := ⟨fun l m => l.source == m.source && l.path == m.path⟩

instance : Hashed (StoredLocation memory) := ⟨fun l => hashParts l.source ++ hashParts l.path⟩

/-- The location that is stored. -/
def location (l : StoredLocation memory) : Location :=
  ⟨l.source, l.fieldPath.map Stored.path⟩

theorem path_location (l : StoredLocation memory) : l.location.path = l.path.path := by
  rw [location, path, Location.path]
  cases l.fieldPath <;> rfl

theorem coherent : Coherent (StoredLocation memory) fun l => l.location.meaning := by
  refine Location.coherent.of_eq (fun l m => ?_) fun l => ?_
  · change _ = (l.source == m.source && l.location.path == m.location.path)
    rw [path_location, path_location]
    exact congrArg (l.source == m.source && ·) (LinkedPath.same_eq l.path.2 m.path.2)
  · change _ = hashParts l.source ++ hashParts l.location.path
    rw [path_location]
    exact congrArg (hashParts l.source ++ ·) (LinkedPath.hashParts_eq l.path.2)

end StoredLocation

end SelectionGraph
