/-!
# Ordered — lists whose entries are found by a key

Lists stand for maps whose entries keep the order in which they were first put in.  Comparing two
of them does not look at that order.

- `Ordered.upsert` : changes the entry of a key, or appends one;
- `Ordered.same`   : whether two lists have the same entries;
- `Ordered.classes` : which members of a list are equal to which.
-/

namespace SelectionGraph
namespace Ordered

variable {α κ : Type}

/-- Changes the first entry that is `wanted`, or else appends an entry. -/
def upsert (wanted : α → Bool) (change : α → α) (added : α) : List α → List α
  | [] => [added]
  | a :: rest => if wanted a then change a :: rest else a :: upsert wanted change added rest

/-- The entry of the key is found afterwards: changed if it was there, and added if it was not. -/
theorem find?_upsert {wanted : α → Bool} {change : α → α} {added : α} (isAdded : wanted added = true)
    (keeps : ∀ a, wanted a = true → wanted (change a) = true) (l : List α) :
    (upsert wanted change added l).find? wanted = some ((l.find? wanted).elim added change) := by
  induction l with
  | nil => simp [upsert, isAdded]
  | cons a rest ih =>
      by_cases h : wanted a = true
      · simp [upsert, h, keeps a h]
      · simp [upsert, h, ih]

/-- Entries of other keys are found as before. -/
theorem find?_upsert_of_other {wanted other : α → Bool} {change : α → α} {added : α}
    (notAdded : other added = false) (apart : ∀ a, wanted a = true → other a = false)
    (keeps : ∀ a, wanted a = true → other (change a) = false) (l : List α) :
    (upsert wanted change added l).find? other = l.find? other := by
  induction l with
  | nil => simp [upsert, notAdded]
  | cons a rest ih =>
      by_cases h : wanted a = true
      · simp [upsert, h, keeps a h, apart a h]
      · simp [upsert, h, ih, List.find?_cons]

/-- Whether two lists of the same length have related entries under the same keys. -/
def same [BEq κ] (key : α → κ) (related : α → α → Bool) (xs ys : List α) : Bool :=
  xs.length == ys.length
    && xs.all fun x => (ys.find? fun y => key y == key x).any fun y => related x y

/-- Numbers the members of a list by equality: equal members have the same number, and a member
unlike all before it has the next one.  `known` holds the members that have a number already. -/
def classesFrom [BEq α] (known : List α) : List α → List Nat
  | [] => []
  | a :: rest =>
      match known.findIdx? (· == a) with
      | some number => number :: classesFrom known rest
      | none => known.length :: classesFrom (known ++ [a]) rest

/-- Numbers the members of a list by equality, from zero. -/
def classes [BEq α] (members : List α) : List Nat :=
  classesFrom [] members

end Ordered
end SelectionGraph
