import Mathlib.Data.List.Basic
import Mathlib.Data.List.TakeWhile
import SelectionGraph.Text.Lines

/-!
# Lines — what the lines of a text are

- `newline_not_mem_of_mem_lines` : no line has a line feed;
- `lines_split`                  : the first line of a text, its end, and the rest;
- `trim_split`                   : a line is its trimmed form between white space;
- `newline_not_mem_singleLine`   : a one-line form has no line feed, whatever the text.
-/

namespace SelectionGraph
namespace Text

/-! ## Lines -/

/-- The line feeds of a text end its lines and stand in none of them. -/
theorem newline_not_mem_of_mem_lines {text line : List Char} (h : line ∈ lines text) :
    '\n' ∉ line := by
  fun_induction lines text generalizing line with
  | case1 => cases h
  | case2 rest ih | case3 rest ih =>
    obtain rfl | h := List.mem_cons.mp h
    · exact List.not_mem_nil
    · exact ih h
  | case4 c rest hline hpair hlast _ =>
    obtain rfl := List.mem_singleton.mp h
    exact fun hc => hline (List.mem_singleton.mp hc).symm
  | case5 c rest hline hpair first more hrest ih =>
    obtain rfl | h := List.mem_cons.mp h
    · rintro (_ | ⟨_, hfirst⟩)
      · exact hline rfl
      · exact ih (hrest ▸ List.mem_cons_self) hfirst
    · exact ih (hrest ▸ List.mem_cons_of_mem _ h)

/-- A text that is not empty is its first line, the end of that line, and what `lines` goes on with.
Only the last line may have no end. -/
theorem lines_split {text : List Char} (h : text ≠ []) :
    ∃ line stop more, text = line ++ (stop ++ more) ∧ lines text = line :: lines more ∧
      (∀ c ∈ stop, isWhiteSpace c = true) ∧ (stop = [] → more = []) := by
  fun_induction lines text with
  | case1 => exact absurd rfl h
  | case2 rest ih => exact ⟨[], ['\n'], rest, rfl, rfl, List.all_eq_true.mp rfl, by simp⟩
  | case3 rest ih => exact ⟨[], ['\r', '\n'], rest, rfl, rfl, List.all_eq_true.mp rfl, by simp⟩
  | case4 c rest hline hpair hlast ih =>
    have hrest : rest = [] := by
      by_contra hne
      obtain ⟨line, stop, more, -, hlines, -⟩ := ih hne
      rw [hlast] at hlines
      cases hlines
    subst hrest
    exact ⟨[c], [], [], by simp, rfl, by simp, fun _ => rfl⟩
  | case5 c rest hline hpair first others hrest ih =>
    have hne : rest ≠ [] := by
      rintro rfl
      cases hrest
    obtain ⟨line, stop, more, rfl, hlines, hstop, hlast⟩ := ih hne
    obtain ⟨rfl, rfl⟩ := List.cons.inj (hrest.symm.trans hlines)
    exact ⟨c :: first, stop, more, rfl, rfl, hstop, hlast⟩

/-! ## Trimming -/

theorem trimEnd_sublist (line : List Char) : (trimEnd line).Sublist line := by
  have h := (List.dropWhile_sublist (l := line.reverse) isWhiteSpace).reverse
  rwa [List.reverse_reverse] at h

theorem trim_sublist (line : List Char) : (trim line).Sublist line :=
  (trimEnd_sublist _).trans (List.dropWhile_sublist isWhiteSpace)

/-- A line is its trimmed form between white space. -/
theorem trim_split (line : List Char) :
    ∃ front back, line = front ++ (trim line ++ back) ∧ (∀ c ∈ front, isWhiteSpace c = true) ∧
      ∀ c ∈ back, isWhiteSpace c = true := by
  have hback := List.takeWhile_append_dropWhile (p := isWhiteSpace) (l := (trimStart line).reverse)
  have hstart : trimStart line =
      trim line ++ ((trimStart line).reverse.takeWhile isWhiteSpace).reverse := by
    have := congrArg List.reverse hback
    rw [List.reverse_append, List.reverse_reverse] at this
    exact this.symm
  refine ⟨line.takeWhile isWhiteSpace, ((trimStart line).reverse.takeWhile isWhiteSpace).reverse, ?_,
    fun c hc => List.mem_takeWhile_imp hc,
    fun c hc => List.mem_takeWhile_imp (List.mem_reverse.mp hc)⟩
  rw [← hstart]
  exact List.takeWhile_append_dropWhile.symm

/-! ## One-line forms -/

theorem newline_not_mem_of_mem_trimmedLines {text line : List Char}
    (h : line ∈ trimmedLines text) : '\n' ∉ line := by
  obtain ⟨whole, hwhole, rfl⟩ := List.mem_map.mp (List.mem_filter.mp h).1
  exact fun hc => newline_not_mem_of_mem_lines hwhole ((trim_sublist whole).subset hc)

/-- Joined by spaces, pieces without a line feed give a text without one. -/
theorem newline_not_mem_intercalate :
    ∀ pieces : List (List Char), (∀ piece ∈ pieces, '\n' ∉ piece) → '\n' ∉ [' '].intercalate pieces
  | [], _ => by simp
  | [piece], h => by simpa using h piece
  | first :: second :: rest, h => by
    have hfirst := h first List.mem_cons_self
    have hrest := newline_not_mem_intercalate (second :: rest) fun piece hpiece =>
      h piece (List.mem_cons_of_mem _ hpiece)
    rw [List.intercalate_cons_cons]
    simp [hfirst, hrest]

theorem newline_not_mem_singleLine (text : List Char) : '\n' ∉ singleLine text :=
  newline_not_mem_intercalate _ fun _ => newline_not_mem_of_mem_trimmedLines

end Text

theorem newline_not_mem_singleLine (text : String) : '\n' ∉ (singleLine text).toList := by
  rw [singleLine, String.toList_ofList]
  exact Text.newline_not_mem_singleLine _

end SelectionGraph
