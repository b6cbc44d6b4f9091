import SelectionGraph.Proofs.Ordered

/-!
# Join — keyed lists put together entry by entry

Entries of one key are combined, which may fail; other entries are kept in the order they were first
put in.

* `Ordered.put`  — one entry goes into the first of its key, or last;
* `Ordered.join` — so do the entries of another list, one after the other;
* `Ordered.Apart` — no two entries have the same key;
* `join_map`     — images of lists are put together as the lists are;
* `join_put`     — an entry may be put in before or after a list is;
* `join_assoc`   — where entries may be combined in any grouping, lists may be put together so.
-/

namespace SelectionGraph
namespace Ordered

variable {α β κ : Type} [BEq κ]

/-- An entry goes into the first of its key, or last. -/
def put (key : α → κ) (combine : α → α → Option α) (entry : α) : List α → Option (List α)
  | [] => some [entry]
  | a :: rest =>
      if key a == key entry then (combine a entry).map (· :: rest)
      else (put key combine entry rest).map (a :: ·)

/-- The entries of a second list go into the first one after the other. -/
def join (key : α → κ) (combine : α → α → Option α) (xs : List α) : List α → Option (List α)
  | [] => some xs
  | y :: ys => (put key combine y xs).bind fun xs => join key combine xs ys

/-- No two entries have the same key. -/
def Apart (key : α → κ) (l : List α) : Prop :=
  l.Pairwise fun a b => (key a == key b) = false

variable {key : α → κ} {combine : α → α → Option α}

/-! ## One entry -/

theorem put_of_ne {a entry : α} {rest : List α} (apart : (key a == key entry) = false) :
    put key combine entry (a :: rest) = (put key combine entry rest).map (a :: ·) := by
  rw [put, if_neg (Bool.eq_false_iff.mp apart)]

theorem put_of_eq {a entry : α} {rest : List α} (same : (key a == key entry) = true) :
    put key combine entry (a :: rest) = (combine a entry).map (· :: rest) := by
  rw [put, if_pos same]

/-- Putting an entry in changes the one that is found, or appends. -/
theorem put_eq (entry : α) (l : List α) : put key combine entry l
    = match l.find? fun a => key a == key entry with
      | none => some (upsert (fun a => key a == key entry) (fun _ => entry) entry l)
      | some held => (combine held entry).map fun new =>
          upsert (fun a => key a == key entry) (fun _ => new) new l := by
  induction l with
  | nil => rfl
  | cons a rest ih =>
      cases wanted : key a == key entry with
      | true =>
          rw [put_of_eq wanted, List.find?_cons_of_pos (by simpa using wanted)]
          simp [upsert, wanted]
      | false =>
          rw [put_of_ne wanted, ih, List.find?_cons_of_neg (by simpa using wanted)]
          cases rest.find? fun a => key a == key entry with
          | none => simp [upsert, wanted]
          | some held =>
              dsimp only
              cases combine held entry <;> simp [upsert, wanted]

/-- An entry always goes in, if it can always be combined. -/
theorem put_total {combined : α → α → α} (total : ∀ a b, combine a b = some (combined a b))
    (entry : α) (l : List α) : put key combine entry l
      = some (upsert (fun a => key a == key entry) (combined · entry) entry l) := by
  induction l with
  | nil => rfl
  | cons a rest ih =>
      cases wanted : key a == key entry with
      | true =>
          rw [put_of_eq wanted, total]
          simp [upsert, wanted]
      | false =>
          rw [put_of_ne wanted, ih]
          simp [upsert, wanted]

/-- An image of a list takes the image of an entry as the list takes the entry. -/
theorem put_map {f : α → β} {key' : β → κ} {combine' : β → β → Option β}
    (keyed : ∀ a, key' (f a) = key a) {entry : α} {l : List α}
    (combined : ∀ a, combine' (f a) (f entry) = (combine a entry).map f) :
    put key' combine' (f entry) (l.map f) = (put key combine entry l).map (List.map f) := by
  induction l with
  | nil => rfl
  | cons a rest ih =>
      rw [List.map_cons]
      cases wanted : key a == key entry with
      | true =>
          rw [put_of_eq wanted, put_of_eq (by rwa [keyed, keyed]), combined]
          cases combine a entry <;> rfl
      | false =>
          rw [put_of_ne wanted, put_of_ne (by rwa [keyed, keyed]), ih]
          cases put key combine entry rest <;> rfl

theorem join_map {f : α → β} {key' : β → κ} {combine' : β → β → Option β}
    (keyed : ∀ a, key' (f a) = key a) {xs ys : List α}
    (combined : ∀ y ∈ ys, ∀ a, combine' (f a) (f y) = (combine a y).map f) :
    join key' combine' (xs.map f) (ys.map f) = (join key combine xs ys).map (List.map f) := by
  induction ys generalizing xs with
  | nil => rfl
  | cons y ys ih =>
      obtain ⟨first, later⟩ := List.forall_mem_cons.mp combined
      rw [List.map_cons, join, join, put_map keyed first]
      cases put key combine y xs with
      | none => rfl
      | some xs₁ => exact ih later

section Forall

variable {P : α → Prop} {entry : α} {l l' : List α}

theorem forall_put (held : ∀ a ∈ l, P a) (new : P entry)
    (combined : ∀ a c, P a → combine a entry = some c → P c)
    (h : put key combine entry l = some l') : ∀ a ∈ l', P a := by
  induction l generalizing l' with
  | nil =>
      cases h
      simpa using new
  | cons a rest ih =>
      obtain ⟨first, later⟩ := List.forall_mem_cons.mp held
      cases wanted : key a == key entry with
      | true =>
          rw [put_of_eq wanted, Option.map_eq_some_iff] at h
          obtain ⟨c, made, rfl⟩ := h
          exact List.forall_mem_cons.mpr ⟨combined a c first made, later⟩
      | false =>
          rw [put_of_ne wanted, Option.map_eq_some_iff] at h
          obtain ⟨rest', put, rfl⟩ := h
          exact List.forall_mem_cons.mpr ⟨first, ih later put⟩

/-- What entries have, and what combining them keeps, all entries of the whole have. -/
theorem forall_join {xs ys zs : List α} (left : ∀ a ∈ xs, P a)
    (right : ∀ y ∈ ys, P y ∧ ∀ a c, P a → combine a y = some c → P c)
    (h : join key combine xs ys = some zs) : ∀ a ∈ zs, P a := by
  induction ys generalizing xs with
  | nil =>
      cases h
      exact left
  | cons y ys ih =>
      obtain ⟨⟨new, combined⟩, later⟩ := List.forall_mem_cons.mp right
      obtain ⟨xs₁, first, rest⟩ := Option.bind_eq_some_iff.mp h
      exact ih (forall_put left new combined first) later rest

end Forall

/-! ## Keys -/

section Keys

variable (keeps : ∀ a b c, combine a b = some c → key c = key a)

include keeps

/-- Putting an entry in keeps all keys, and adds that of the entry. -/
theorem map_key_put {entry : α} {l l' : List α} (h : put key combine entry l = some l') :
    l'.map key = l.map key ∨ (∀ a ∈ l, (key a == key entry) = false)
      ∧ l'.map key = l.map key ++ [key entry] := by
  induction l generalizing l' with
  | nil =>
      cases h
      exact Or.inr ⟨nofun, rfl⟩
  | cons a rest ih =>
      cases wanted : key a == key entry with
      | true =>
          rw [put_of_eq wanted, Option.map_eq_some_iff] at h
          obtain ⟨c, made, rfl⟩ := h
          exact Or.inl (by rw [List.map_cons, List.map_cons, keeps a entry c made])
      | false =>
          rw [put_of_ne wanted, Option.map_eq_some_iff] at h
          obtain ⟨rest', put, rfl⟩ := h
          rcases ih put with same | ⟨new, more⟩
          · exact Or.inl (by rw [List.map_cons, List.map_cons, same])
          · refine Or.inr ⟨List.forall_mem_cons.mpr ⟨wanted, new⟩, ?_⟩
            rw [List.map_cons, List.map_cons, more, List.cons_append]

theorem Apart.put {entry : α} {l l' : List α} (apart : Apart key l)
    (h : Ordered.put key combine entry l = some l') : Apart key l' := by
  have byKeys : ∀ l : List α, Apart key l ↔ (l.map key).Pairwise fun a b => (a == b) = false :=
    fun l => (@List.pairwise_map _ _ key (fun a b => (a == b) = false) l).symm
  rw [byKeys] at apart ⊢
  rcases map_key_put keeps h with same | ⟨new, more⟩
  · rwa [same]
  · rw [more, List.pairwise_append]
    refine ⟨apart, List.pairwise_singleton _ _, ?_⟩
    intro k memK k' memK'
    obtain ⟨a, memA, rfl⟩ := List.mem_map.mp memK
    rw [List.mem_singleton.mp memK']
    exact new a memA

theorem Apart.join {xs ys zs : List α} (apart : Apart key xs)
    (h : Ordered.join key combine xs ys = some zs) : Apart key zs := by
  induction ys generalizing xs with
  | nil =>
      cases h
      exact apart
  | cons y ys ih =>
      obtain ⟨xs₁, first, rest⟩ := Option.bind_eq_some_iff.mp h
      exact ih (apart.put keeps first) rest

theorem exists_key_of_put {entry : α} {l l' : List α} (h : put key combine entry l = some l') {k : κ}
    (held : ∃ a ∈ l, (key a == k) = true) : ∃ a ∈ l', (key a == k) = true := by
  obtain ⟨a, mem, same⟩ := held
  have memKey : key a ∈ l'.map key := by
    rcases map_key_put keeps h with keys | ⟨-, keys⟩
    · exact keys ▸ List.mem_map_of_mem mem
    · exact keys ▸ List.mem_append_left _ (List.mem_map_of_mem mem)
  obtain ⟨b, memB, keyed⟩ := List.mem_map.mp memKey
  exact ⟨b, memB, keyed ▸ same⟩

variable [EquivBEq κ]

/-- After an entry was put in there is one of its key. -/
theorem exists_key_put {entry : α} {l l' : List α} (h : put key combine entry l = some l') :
    ∃ a ∈ l', (key a == key entry) = true := by
  induction l generalizing l' with
  | nil =>
      cases h
      exact ⟨entry, List.mem_singleton_self _, BEq.rfl⟩
  | cons a rest ih =>
      cases wanted : key a == key entry with
      | true =>
          rw [put_of_eq wanted, Option.map_eq_some_iff] at h
          obtain ⟨c, made, rfl⟩ := h
          exact ⟨c, List.mem_cons_self, by rwa [keeps a entry c made]⟩
      | false =>
          rw [put_of_ne wanted, Option.map_eq_some_iff] at h
          obtain ⟨rest', put, rfl⟩ := h
          obtain ⟨b, mem, same⟩ := ih put
          exact ⟨b, List.mem_cons_of_mem _ mem, same⟩

/-! ## Order and grouping -/

/-- Entries of different keys may be put in in either order, if one of the second's key is there. -/
theorem put_comm {y z : α} (differ : (key y == key z) = false) {l : List α}
    (held : ∃ a ∈ l, (key a == key z) = true) :
    (put key combine y l).bind (put key combine z) = (put key combine z l).bind (put key combine y) := by
  -- If neither key were there, the entries would stand in the order they were put in.
  induction l with
  | nil => simp at held
  | cons a rest ih =>
      cases isY : key a == key y with
      | true =>
          have notZ : (key a == key z) = false := by
            rw [Bool.eq_false_iff] at differ ⊢
            exact fun isZ => differ (BEq.trans (BEq.symm isY) isZ)
          rw [put_of_eq isY, put_of_ne notZ]
          cases made : combine a y with
          | none => cases put key combine z rest <;> simp [put_of_eq isY, made]
          | some c =>
              have notZ' : (key c == key z) = false := by rwa [keeps a y c made]
              cases other : put key combine z rest <;>
                simp [put_of_eq isY, put_of_ne notZ', made, other]
      | false =>
          cases isZ : key a == key z with
          | true =>
              rw [put_of_ne isY, put_of_eq isZ]
              cases made : combine a z with
              | none => cases put key combine y rest <;> simp [put_of_eq isZ, made]
              | some c =>
                  have notY' : (key c == key y) = false := by rwa [keeps a z c made]
                  cases other : put key combine y rest <;>
                    simp [put_of_eq isZ, put_of_ne notY', made, other]
          | false =>
              have later : ∃ b ∈ rest, (key b == key z) = true := by simpa [isZ] using held
              have cons : ∀ {u v : α}, (key a == key u) = false → (key a == key v) = false →
                  (put key combine u (a :: rest)).bind (put key combine v)
                    = ((put key combine u rest).bind (put key combine v)).map (a :: ·) := by
                intro u v notU notV
                rw [put_of_ne notU]
                cases put key combine u rest with
                | none => rfl
                | some rest' => exact put_of_ne notV
              rw [cons isY isZ, cons isZ isY, ih later]

/-- Two entries of one key may be combined before they are put in. -/
theorem put_put {y z : α} (same : (key y == key z) = true)
    (assoc : ∀ a, (combine a y).bind (combine · z) = (combine y z).bind (combine a)) (l : List α) :
    (put key combine y l).bind (put key combine z)
      = (combine y z).bind fun c => put key combine c l := by
  induction l with
  | nil =>
      change put key combine z [y] = (combine y z).bind fun c => some [c]
      rw [put_of_eq same]
      cases combine y z <;> rfl
  | cons a rest ih =>
      cases wanted : key a == key y with
      | true =>
          have isZ : (key a == key z) = true := BEq.trans wanted same
          have left : (put key combine y (a :: rest)).bind (put key combine z)
              = ((combine a y).bind (combine · z)).map (· :: rest) := by
            rw [put_of_eq wanted]
            cases made : combine a y with
            | none => rfl
            | some c => exact put_of_eq (by rwa [keeps a y c made])
          rw [left, assoc]
          cases made : combine y z with
          | none => rfl
          | some c => exact (put_of_eq (by rwa [keeps y z c made])).symm
      | false =>
          have notZ : (key a == key z) = false := by
            rw [Bool.eq_false_iff] at wanted ⊢
            exact fun isZ => wanted (BEq.trans isZ (BEq.symm same))
          have left : (put key combine y (a :: rest)).bind (put key combine z)
              = ((put key combine y rest).bind (put key combine z)).map (a :: ·) := by
            rw [put_of_ne wanted]
            cases put key combine y rest with
            | none => rfl
            | some rest' => exact put_of_ne notZ
          rw [left, ih]
          cases made : combine y z with
          | none => rfl
          | some c => exact (put_of_ne (by rwa [keeps y z c made])).symm

/-- An entry whose key is there already may be put in before entries of other keys. -/
theorem join_comm {z : α} {xs ys : List α} (differ : ∀ y ∈ ys, (key y == key z) = false)
    (held : ∃ a ∈ xs, (key a == key z) = true) :
    (join key combine xs ys).bind (put key combine z)
      = (put key combine z xs).bind fun xs => join key combine xs ys := by
  induction ys generalizing xs with
  | nil => simp [join]
  | cons y ys ih =>
      obtain ⟨first, later⟩ := List.forall_mem_cons.mp differ
      calc (join key combine xs (y :: ys)).bind (put key combine z)
          = (put key combine y xs).bind fun xs₁ =>
              (join key combine xs₁ ys).bind (put key combine z) := by rw [join, Option.bind_assoc]
        _ = (put key combine y xs).bind fun xs₁ =>
              (put key combine z xs₁).bind fun xs₂ => join key combine xs₂ ys := by
            refine Option.bind_congr fun xs₁ made => ?_
            exact ih later (exists_key_of_put keeps made held)
        _ = ((put key combine z xs).bind (put key combine y)).bind fun xs₂ =>
              join key combine xs₂ ys := by rw [← put_comm keeps first held, Option.bind_assoc]
        _ = _ := by rw [Option.bind_assoc]; rfl

/-- An entry may be put into the second list before that is put into the first.  The induction is on
the second list, in which the keys do not repeat. -/
theorem join_put {z : α} {xs ys : List α} (apart : Apart key ys)
    (assoc : ∀ y ∈ ys, ∀ a, (combine a y).bind (combine · z) = (combine y z).bind (combine a)) :
    (join key combine xs ys).bind (put key combine z)
      = (put key combine z ys).bind (join key combine xs) := by
  induction ys generalizing xs with
  | nil => simp [join, put]
  | cons y ys ih =>
      obtain ⟨others, apart⟩ := List.pairwise_cons.mp apart
      obtain ⟨first, later⟩ := List.forall_mem_cons.mp assoc
      cases same : key y == key z with
      | true =>
          -- The entry goes into `y`; what comes after `y` has other keys.
          have differ : ∀ w ∈ ys, (key w == key z) = false := fun w mem => by
            have other := others w mem
            rw [Bool.eq_false_iff] at other ⊢
            exact fun isZ => other (BEq.trans same (BEq.symm isZ))
          calc (join key combine xs (y :: ys)).bind (put key combine z)
              = (put key combine y xs).bind fun xs₁ =>
                  (join key combine xs₁ ys).bind (put key combine z) := by
                rw [join, Option.bind_assoc]
            _ = (put key combine y xs).bind fun xs₁ =>
                  (put key combine z xs₁).bind fun xs₂ => join key combine xs₂ ys := by
                refine Option.bind_congr fun xs₁ made => join_comm keeps differ ?_
                obtain ⟨a, mem, isY⟩ := exists_key_put keeps made
                exact ⟨a, mem, BEq.trans isY same⟩
            _ = ((put key combine y xs).bind (put key combine z)).bind fun xs₂ =>
                  join key combine xs₂ ys := (Option.bind_assoc _ _ _).symm
            _ = ((combine y z).bind fun c => put key combine c xs).bind fun xs₂ =>
                  join key combine xs₂ ys := by rw [put_put keeps same first]
            _ = (put key combine z (y :: ys)).bind (join key combine xs) := by
                rw [put_of_eq same, Option.bind_assoc, Option.bind_map]
                rfl
      | false =>
          calc (join key combine xs (y :: ys)).bind (put key combine z)
              = (put key combine y xs).bind fun xs₁ =>
                  (join key combine xs₁ ys).bind (put key combine z) := by
                rw [join, Option.bind_assoc]
            _ = (put key combine y xs).bind fun xs₁ =>
                  (put key combine z ys).bind (join key combine xs₁) :=
                Option.bind_congr fun xs₁ _ => ih apart later
            _ = (put key combine z ys).bind fun ys₁ =>
                  (put key combine y xs).bind fun xs₁ => join key combine xs₁ ys₁ := by
                cases put key combine y xs <;> cases put key combine z ys <;> rfl
            _ = (put key combine z (y :: ys)).bind (join key combine xs) := by
                rw [put_of_ne same, Option.bind_map]
                rfl

/-- Lists may be put together in any grouping, if their entries may be.  `P` is what the entries of the
second list have, and go on to have when others are combined into them. -/
theorem join_assoc {P : α → Prop} {xs ys zs : List α} (apart : Apart key ys)
    (held : ∀ y ∈ ys, P y)
    (brings : ∀ z ∈ zs, P z ∧ ∀ y, P y → (∀ c, combine y z = some c → P c)
      ∧ ∀ a, (combine a y).bind (combine · z) = (combine y z).bind (combine a)) :
    (join key combine xs ys).bind (fun m => join key combine m zs)
      = (join key combine ys zs).bind (join key combine xs) := by
  induction zs generalizing ys with
  | nil => simp [join]
  | cons z zs ih =>
      obtain ⟨⟨new, combines⟩, later⟩ := List.forall_mem_cons.mp brings
      calc (join key combine xs ys).bind (fun m => join key combine m (z :: zs))
          = ((join key combine xs ys).bind (put key combine z)).bind fun m =>
              join key combine m zs := (Option.bind_assoc _ _ _).symm
        _ = ((put key combine z ys).bind (join key combine xs)).bind fun m =>
              join key combine m zs := by
            rw [join_put keeps apart fun y mem => (combines y (held y mem)).2]
        _ = (put key combine z ys).bind fun ys₁ =>
              (join key combine xs ys₁).bind fun m => join key combine m zs :=
            Option.bind_assoc _ _ _
        _ = (put key combine z ys).bind fun ys₁ =>
              (join key combine ys₁ zs).bind (join key combine xs) := by
            refine Option.bind_congr fun ys₁ made => ih (apart.put keeps made) ?_ later
            exact forall_put held new (fun y c holds => (combines y holds).1 c) made
        _ = (join key combine ys (z :: zs)).bind (join key combine xs) :=
            (Option.bind_assoc _ _ _).symm

end Keys

end Ordered
end SelectionGraph
