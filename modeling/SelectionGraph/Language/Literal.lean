import SelectionGraph.Language.TypeRef

/-!
# Literal — values written in a document

The values that arguments and defaults are written as.  Numbers keep their text, because they are
printed back as written and never computed with.

- `Literal`                : the values, with variables among them;
- `DecidableEq Literal`    : two values are equal when they are written alike, members of an
  object in order.
-/

namespace SelectionGraph

/-- A value as written. -/
inductive Literal
  | null
  | boolean (value : Bool)
  | enum (name : Name)
  | var (name : Name)
  | int (text : String)
  | float (text : String)
  | string (value : String)
  | list (items : List Literal)
  | object (members : List (Name × Literal))
  deriving Repr

namespace Literal

/-! ## Equality -/

mutual

def same : Literal → Literal → Bool
  | null, null => true
  | boolean v, boolean w => v == w
  | enum m, enum n => m == n
  | var m, var n => m == n
  | int s, int t => s == t
  | float s, float t => s == t
  | string s, string t => s == t
  | list xs, list ys => sameItems xs ys
  | object xs, object ys => sameMembers xs ys
  | _, _ => false

def sameItems : List Literal → List Literal → Bool
  | [], [] => true
  | x :: xs, y :: ys => same x y && sameItems xs ys
  | _, _ => false

/-- Whether two objects have members of the same names and values, in the same order. -/
def sameMembers : List (Name × Literal) → List (Name × Literal) → Bool
  | [], [] => true
  | (m, x) :: xs, (n, y) :: ys => m == n && same x y && sameMembers xs ys
  | _, _ => false

end

mutual

theorem same_refl : ∀ x : Literal, same x x = true
  | null => by simp [same]
  | boolean _ => by simp [same]
  | enum _ => by simp [same]
  | var _ => by simp [same]
  | int _ => by simp [same]
  | float _ => by simp [same]
  | string _ => by simp [same]
  | list xs => by simp [same, sameItems_refl xs]
  | object xs => by simp [same, sameMembers_refl xs]

theorem sameItems_refl : ∀ xs : List Literal, sameItems xs xs = true
  | [] => by simp [sameItems]
  | x :: xs => by simp [sameItems, same_refl x, sameItems_refl xs]

theorem sameMembers_refl : ∀ xs : List (Name × Literal), sameMembers xs xs = true
  | [] => by simp [sameMembers]
  | (n, x) :: xs => by simp [sameMembers, same_refl x, sameMembers_refl xs]

end

mutual

theorem eq_of_same : ∀ x y : Literal, same x y = true → x = y
  | null, y, h => by cases y <;> simp_all [same]
  | boolean _, y, h => by cases y <;> simp_all [same]
  | enum _, y, h => by cases y <;> simp_all [same]
  | var _, y, h => by cases y <;> simp_all [same]
  | int _, y, h => by cases y <;> simp_all [same]
  | float _, y, h => by cases y <;> simp_all [same]
  | string _, y, h => by cases y <;> simp_all [same]
  | list xs, y, h => by
      cases y with
      | list ys => rw [eq_of_sameItems xs ys (by simpa [same] using h)]
      | _ => simp [same] at h
  | object xs, y, h => by
      cases y with
      | object ys => rw [eq_of_sameMembers xs ys (by simpa [same] using h)]
      | _ => simp [same] at h

theorem eq_of_sameItems : ∀ xs ys : List Literal, sameItems xs ys = true → xs = ys
  | [], ys, h => by cases ys <;> simp_all [sameItems]
  | x :: xs, ys, h => by
      cases ys with
      | nil => simp [sameItems] at h
      | cons y ys =>
          rw [sameItems, Bool.and_eq_true] at h
          rw [eq_of_same x y h.1, eq_of_sameItems xs ys h.2]

theorem eq_of_sameMembers :
    ∀ xs ys : List (Name × Literal), sameMembers xs ys = true → xs = ys
  | [], ys, h => by cases ys <;> simp_all [sameMembers]
  | (m, x) :: xs, ys, h => by
      cases ys with
      | nil => simp [sameMembers] at h
      | cons y ys =>
          obtain ⟨n, y⟩ := y
          simp only [sameMembers, Bool.and_eq_true, beq_iff_eq] at h
          rw [h.1.1, eq_of_same x y h.1.2, eq_of_sameMembers xs ys h.2]

end

instance : DecidableEq Literal := fun x y =>
  if h : same x y = true then isTrue (eq_of_same x y h)
  else isFalse fun e => h (e ▸ same_refl x)

end Literal
end SelectionGraph
