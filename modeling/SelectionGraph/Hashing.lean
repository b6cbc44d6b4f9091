/-!
# Hashing — what values feed a hasher

A value is hashed by feeding a hasher one part after the other.  Values that feed the same parts have
the same hash, whichever hasher it is.

- `HashPart`         : one part: a text, a flag, a number, or the shape of what follows;
- `Hashed`           : values with the parts that they feed;
- `Hashed.hashable`  : their hashes, by what a hasher makes of the parts.
-/

namespace SelectionGraph

/-- One part of what a hasher is fed. -/
inductive HashPart
  | size (length : Nat)
  | variant (index : Nat)
  | text (text : String)
  | flag (value : Bool)
  | number (value : Nat)
  | word (value : UInt64)
  deriving DecidableEq, Hashable, Repr

/-- Values that are hashed part by part. -/
class Hashed (α : Type) where
  /-- The parts that a value feeds a hasher, in order. -/
  hashParts : α → List HashPart

export Hashed (hashParts)

namespace Hashed

variable {α β : Type} [Hashed α] [Hashed β]

instance : Hashed String := ⟨fun s => [.text s]⟩

instance : Hashed Bool := ⟨fun b => [.flag b]⟩

instance : Hashed UInt64 := ⟨fun w => [.word w]⟩

instance : Hashed (α × β) := ⟨fun p => hashParts p.1 ++ hashParts p.2⟩

/-- The length, and then the members. -/
instance : Hashed (List α) := ⟨fun l => .size l.length :: l.flatMap hashParts⟩

/-- Whether there is a value, and then the value. -/
instance : Hashed (Option α) := ⟨fun o => o.elim [.variant 0] fun a => .variant 1 :: hashParts a⟩

/-- The hashes that a hasher comes to. -/
@[reducible] def hashable (α : Type) [Hashed α] (digest : List HashPart → UInt64) : Hashable α :=
  ⟨fun a => digest (hashParts a)⟩

end Hashed
end SelectionGraph
