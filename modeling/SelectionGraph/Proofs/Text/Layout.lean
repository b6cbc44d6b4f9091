import Mathlib.Logic.Relation
import SelectionGraph.Proofs.Text.Lines

/-!
# Layout — what the one-line form of a text forgets

The one-line form forgets how a text is laid out on lines, and nothing else about where its lines are
broken: a line break that is put between two characters that are not white space is noticed.

- `LineEnd`, `written`     : a text written line by line, with either end for each line;
- `Relaid`                 : one change of layout, of the white space around a line or of a blank line;
- `content`                : what is left of lines, trimmed and without blank ones;
- `trimmedLines_written`   : it is the trimmed lines of the text, however its lines end;
- `one_line_forms_forget_the_layout` : what follows for one-line forms.
-/

namespace SelectionGraph
namespace Text

/-! ## Texts written line by line -/

/-- The end of a line: a line feed, or a carriage return before it. -/
inductive LineEnd
  | feed
  | returnFeed

def LineEnd.text : LineEnd → List Char
  | feed => ['\n']
  | returnFeed => ['\r', '\n']

/-- The text of some lines, each with its end.  The last line has its end only if the text is closed. -/
def written (closed : Bool) : List (List Char × LineEnd) → List Char
  | [] => []
  | [(line, stop)] => line ++ if closed then stop.text else []
  | (line, stop) :: next :: rest => line ++ (stop.text ++ written closed (next :: rest))

/-- White space other than line feeds. -/
def Blank (text : List Char) : Prop :=
  ∀ c ∈ text, isWhiteSpace c = true ∧ c ≠ '\n'

/-- One change of layout: white space is put around a line, or a line of white space between lines. -/
inductive Relaid : List (List Char) → List (List Char) → Prop
  | pad {front back : List Char} (before : List (List Char)) (line : List Char)
      (after : List (List Char)) (blankFront : Blank front) (blankBack : Blank back) :
      Relaid (before ++ line :: after) (before ++ (front ++ (line ++ back)) :: after)
  | insert {blank : List Char} (before after : List (List Char)) (isBlank : Blank blank) :
      Relaid (before ++ after) (before ++ blank :: after)

/-! ## White space around a line -/

section Trim

variable {front line back : List Char}

theorem trimStart_append_left (blank : ∀ c ∈ front, isWhiteSpace c = true) :
    trimStart (front ++ line) = trimStart line :=
  List.dropWhile_append_of_pos blank

theorem trimEnd_append_right (blank : ∀ c ∈ back, isWhiteSpace c = true) :
    trimEnd (line ++ back) = trimEnd line := by
  rw [trimEnd, trimEnd, List.reverse_append,
    List.dropWhile_append_of_pos fun c mem => blank c (List.mem_reverse.mp mem)]

theorem blank_return : ∀ c ∈ ['\r'], isWhiteSpace c = true :=
  List.forall_mem_singleton.mpr rfl

/-- White space around a line is trimmed with what the line has. -/
theorem trim_pad (front line back : List Char)
    (blankFront : ∀ c ∈ front, isWhiteSpace c = true)
    (blankBack : ∀ c ∈ back, isWhiteSpace c = true) :
    trim (front ++ (line ++ back)) = trim line := by
  rw [trim, trim, trimStart_append_left blankFront]
  have none : back.dropWhile isWhiteSpace = [] := List.dropWhile_eq_nil_iff.mpr blankBack
  rw [trimStart, trimStart, List.dropWhile_append, none]
  -- A line of white space has nothing left to put the white space behind.
  split
  · rename_i nothing
    rw [List.isEmpty_iff.mp nothing]
  · exact trimEnd_append_right blankBack

theorem trim_blank (blank : ∀ c ∈ line, isWhiteSpace c = true) : trim line = [] := by
  have padded := trim_pad line [] [] blank (by simp)
  simpa [trim, trimStart, trimEnd] using padded

theorem trimStart_of_blank (blank : ∀ c ∈ line, isWhiteSpace c = true) : trimStart line = [] :=
  List.dropWhile_eq_nil_iff.mpr blank

theorem trimEnd_of_blank (blank : ∀ c ∈ line, isWhiteSpace c = true) : trimEnd line = [] := by
  rw [trimEnd, List.dropWhile_eq_nil_iff.mpr fun c mem => blank c (List.mem_reverse.mp mem)]
  rfl

/-- A character that is not white space keeps what is behind it from being trimmed at the start. -/
theorem trimStart_append_stop {a : Char} (stop : isWhiteSpace a = false) (front rest : List Char) :
    trimStart (front ++ a :: rest) = trimStart front ++ a :: rest := by
  rw [trimStart, trimStart, List.dropWhile_append, List.dropWhile_cons_of_neg (by simp [stop])]
  split
  · rename_i nothing
    rw [List.isEmpty_iff.mp nothing, List.nil_append]
  · rfl

/-- It keeps what is before it from being trimmed at the end. -/
theorem trimEnd_append_stop {a : Char} (stop : isWhiteSpace a = false) (rest back : List Char) :
    trimEnd (rest ++ a :: back) = rest ++ a :: trimEnd back := by
  have turned := congrArg List.reverse (trimStart_append_stop stop back.reverse rest.reverse)
  simpa [trimStart, trimEnd] using turned

theorem trim_append_stop {a : Char} (stop : isWhiteSpace a = false) (front back : List Char) :
    trim (front ++ a :: back) = trimStart front ++ a :: trimEnd back := by
  rw [trim, trimStart_append_stop stop, trimEnd_append_stop stop]

/-- What is left of a text behind its first white space does not start with any. -/
theorem trimStart_head {c : Char} (first : (trimStart line).head? = some c) :
    isWhiteSpace c = false := by
  rw [trimStart, ← List.find?_not_eq_head?_dropWhile] at first
  simpa using List.find?_some first

theorem trim_last {c : Char} (last : (trim line).getLast? = some c) : isWhiteSpace c = false := by
  rw [trim, trimEnd, List.getLast?_reverse] at last
  exact trimStart_head last

theorem trim_head {c : Char} (first : (trim line).head? = some c) : isWhiteSpace c = false := by
  have start : trim line <+: trimStart line := by
    have rest := List.dropWhile_suffix (l := (trimStart line).reverse) isWhiteSpace
    rwa [← List.reverse_prefix, List.reverse_reverse] at rest
  obtain ⟨rest, start⟩ := start
  have head : (trimStart line).head? = some c := by
    rw [← start, List.head?_append, first]
    rfl
  exact trimStart_head head

/-- A line without white space at either end is trimmed. -/
theorem trim_eq_self (first : ∀ c, line.head? = some c → isWhiteSpace c = false)
    (last : ∀ c, line.getLast? = some c → isWhiteSpace c = false) : trim line = line := by
  have keeps : ∀ text : List Char, (∀ c, text.head? = some c → isWhiteSpace c = false) →
      text.dropWhile isWhiteSpace = text := by
    intro text first
    cases text with
    | nil => rfl
    | cons c rest => exact List.dropWhile_cons_of_neg (by simp [first c rfl])
  have start : trimStart line = line := keeps line first
  have turned : line.reverse.dropWhile isWhiteSpace = line.reverse :=
    keeps line.reverse fun c here => last c (by rwa [List.head?_reverse] at here)
  rw [trim, start, trimEnd, turned, List.reverse_reverse]

end Trim

/-! ## The lines of a text that is written -/

/-- What lines hold: they are trimmed, and blank ones are dropped. -/
def content (lines : List (List Char)) : List (List Char) :=
  (lines.map trim).filter fun line => !line.isEmpty

theorem content_append (ls more : List (List Char)) : content (ls ++ more) = content ls ++ content more := by
  simp [content]

theorem content_cons (line : List Char) (more : List (List Char)) :
    content (line :: more) = content [line] ++ content more :=
  content_append [line] more

theorem content_singleton {line : List Char} (something : trim line ≠ []) : content [line] = [trim line] := by
  simp [content, something]

theorem content_congr {line line' : List Char} (same : trim line = trim line') :
    content [line] = content [line'] := by
  rw [content, content, List.map_singleton, List.map_singleton, same]

theorem content_of_blank {line : List Char} (blank : ∀ c ∈ line, isWhiteSpace c = true) :
    content [line] = [] := by
  simp [content, trim_blank blank]

/-- A line ends at the first line feed.  A carriage return before it is not part of the line. -/
theorem lines_append_feed {line : List Char} (whole : '\n' ∉ line) (rest : List Char) :
    ∃ line', lines (line ++ '\n' :: rest) = line' :: lines rest
      ∧ (line = line' ∨ line = line' ++ ['\r']) := by
  induction line with
  | nil => exact ⟨[], by rw [List.nil_append, lines], .inl rfl⟩
  | cons c line ih =>
      rw [List.mem_cons, not_or] at whole
      obtain ⟨line', found, same⟩ := ih whole.2
      by_cases returns : c = '\r' ∧ line = []
      · obtain ⟨rfl, rfl⟩ := returns
        exact ⟨[], by rw [List.singleton_append, lines], .inr rfl⟩
      · refine ⟨c :: line', ?_, same.imp (congrArg _) (congrArg _)⟩
        rw [List.cons_append, lines, found]
        · exact fun here => whole.1 here.symm
        · -- The line goes on behind a carriage return.
          rintro more rfl here
          cases line with
          | nil => exact returns ⟨rfl, rfl⟩
          | cons d line =>
              rw [List.cons_append, List.cons.injEq] at here
              exact whole.2 (here.1 ▸ List.mem_cons_self)

theorem trimmedLines_append_feed {line : List Char} (whole : '\n' ∉ line) (rest : List Char) :
    trimmedLines (line ++ '\n' :: rest) = content [line] ++ trimmedLines rest := by
  obtain ⟨line', found, same⟩ := lines_append_feed whole rest
  have trimmed : trim line' = trim line := by
    obtain rfl | rfl := same
    · rfl
    · exact (trim_pad [] line' ['\r'] (by simp) blank_return).symm
  rw [trimmedLines, found]
  exact (content_cons line' (lines rest)).trans (congrArg (· ++ _) (content_congr trimmed))

theorem lines_of_newline_not_mem {line : List Char} (whole : '\n' ∉ line) (some : line ≠ []) :
    lines line = [line] := by
  induction line with
  | nil => exact absurd rfl some
  | cons c line ih =>
      rw [List.mem_cons, not_or] at whole
      rw [lines]
      · cases line with
        | nil => rfl
        | cons d line => rw [ih whole.2 (List.cons_ne_nil d line)]
      · exact fun here => whole.1 here.symm
      · rintro more - rfl
        exact whole.2 List.mem_cons_self

theorem trimmedLines_of_newline_not_mem {line : List Char} (whole : '\n' ∉ line) :
    trimmedLines line = content [line] := by
  by_cases nothing : line = []
  · rw [nothing]
    rfl
  · rw [trimmedLines, lines_of_newline_not_mem whole nothing, content]

/-- The trimmed lines of a text that is written are the content of its lines, however they end. -/
theorem trimmedLines_written (closed : Bool) (ls : List (List Char × LineEnd))
    (whole : ∀ line ∈ ls, '\n' ∉ line.1) : trimmedLines (written closed ls) = content (ls.map Prod.fst) := by
  have ended : ∀ (line : List Char) (stop : LineEnd) (rest : List Char), '\n' ∉ line →
      trimmedLines (line ++ (stop.text ++ rest)) = content [line] ++ trimmedLines rest := by
    intro line stop rest whole
    cases stop with
    | feed => exact trimmedLines_append_feed whole rest
    | returnFeed =>
        have padded : trim (line ++ ['\r']) = trim line :=
          trim_pad [] line ['\r'] (by simp) blank_return
        have returned : '\n' ∉ line ++ ['\r'] := by simp [whole]
        have more := trimmedLines_append_feed returned rest
        rwa [content_congr padded, List.append_assoc] at more
  induction ls with
  | nil => rfl
  | cons first rest ih =>
      obtain ⟨line, stop⟩ := first
      obtain ⟨wholeLine, wholeRest⟩ := List.forall_mem_cons.mp whole
      rw [List.map_cons, content_cons]
      cases rest with
      | nil =>
          cases closed with
          | false =>
              rw [written, if_neg Bool.false_ne_true, List.append_nil]
              simpa [content] using trimmedLines_of_newline_not_mem wholeLine
          | true =>
              have last := ended line stop [] wholeLine
              rw [List.append_nil] at last
              rw [written, if_pos rfl, last]
              rfl
      | cons next rest => rw [written, ended line stop _ wholeLine, ih wholeRest]

/-! ## Changes of layout -/

/-- A change of layout does not change the content of lines. -/
theorem Relaid.content_eq {ls ls' : List (List Char)} (h : Relaid ls ls') : content ls = content ls' := by
  cases h with
  | pad before line after blankFront blankBack =>
      have padded := trim_pad _ line _ (fun c mem => (blankFront c mem).1)
        fun c mem => (blankBack c mem).1
      rw [content_append, content_append, content_cons, content_cons (_ ++ _), content_congr padded]
  | insert before after isBlank =>
      rw [content_append, content_append, content_cons, content_of_blank fun c mem => (isBlank c mem).1,
        List.nil_append]

/-- It puts no line feed into a line. -/
theorem Relaid.whole_iff {ls ls' : List (List Char)} (h : Relaid ls ls') :
    (∀ line ∈ ls, '\n' ∉ line) ↔ ∀ line ∈ ls', '\n' ∉ line := by
  have none : ∀ {text : List Char}, Blank text → '\n' ∉ text := fun blank mem => (blank _ mem).2 rfl
  cases h with
  | pad before line after blankFront blankBack =>
      simp [or_imp, forall_and, none blankFront, none blankBack]
  | insert before after isBlank =>
      simp [or_imp, forall_and, none isBlank]

/-- Texts that are laid out differently have the same one-line form. -/
theorem singleLine_written_eq {ls ls' : List (List Char × LineEnd)}
    (whole : ∀ line ∈ ls.map Prod.fst, '\n' ∉ line)
    (relaid : Relation.EqvGen Relaid (ls.map Prod.fst) (ls'.map Prod.fst)) (closed closed' : Bool) :
    singleLine (written closed ls) = singleLine (written closed' ls') := by
  have same : content (ls.map Prod.fst) = content (ls'.map Prod.fst)
      ∧ ((∀ line ∈ ls.map Prod.fst, '\n' ∉ line) ↔ ∀ line ∈ ls'.map Prod.fst, '\n' ∉ line) := by
    generalize ls.map Prod.fst = l, ls'.map Prod.fst = l' at relaid
    induction relaid with
    | rel _ _ step => exact ⟨step.content_eq, step.whole_iff⟩
    | refl _ => exact ⟨rfl, Iff.rfl⟩
    | symm _ _ _ ih => exact ⟨ih.1.symm, ih.2.symm⟩
    | trans _ _ _ _ _ first second => exact ⟨first.1.trans second.1, first.2.trans second.2⟩
  have whole' := same.2.mp whole
  rw [List.forall_mem_map] at whole whole'
  rw [singleLine, singleLine, trimmedLines_written closed ls whole,
    trimmedLines_written closed' ls' whole', same.1]

/-! ## One-line forms -/

/-- A piece that is joined with others stands between those before it and those after it. -/
theorem intercalate_middle (sep piece : List Char) (before after : List (List Char)) :
    sep.intercalate (before ++ piece :: after)
      = before.flatMap (· ++ sep) ++ (piece ++ after.flatMap (sep ++ ·)) := by
  induction before with
  | nil =>
      rw [List.nil_append, List.flatMap_nil, List.nil_append]
      induction after generalizing piece with
      | nil => simp
      | cons next after ih => rw [List.intercalate_cons_cons, ih]; simp
  | cons first before ih =>
      rw [List.cons_append, List.intercalate_cons_of_ne_nil (by simp), ih]
      simp

theorem trimmed_of_mem_trimmedLines {text line : List Char} (mem : line ∈ trimmedLines text) :
    ∃ whole, line = trim whole ∧ line ≠ [] := by
  obtain ⟨trimmed, nonempty⟩ := List.mem_filter.mp mem
  obtain ⟨whole, -, rfl⟩ := List.mem_map.mp trimmed
  exact ⟨whole, rfl, by simpa using nonempty⟩

theorem singleLine_head {text : List Char} {c : Char} (first : (singleLine text).head? = some c) :
    isWhiteSpace c = false := by
  cases trimmed : trimmedLines text with
  | nil => simp [singleLine, trimmed] at first
  | cons line rest =>
      obtain ⟨whole, same, nonempty⟩ :=
        trimmed_of_mem_trimmedLines (trimmed ▸ List.mem_cons_self : line ∈ trimmedLines text)
      rw [singleLine, trimmed, ← List.nil_append (line :: rest), intercalate_middle,
        List.flatMap_nil, List.nil_append, List.head?_append_of_ne_nil _ nonempty, same] at first
      exact trim_head first

theorem singleLine_last {text : List Char} {c : Char} (last : (singleLine text).getLast? = some c) :
    isWhiteSpace c = false := by
  rcases List.eq_nil_or_concat (trimmedLines text) with trimmed | ⟨rest, line, trimmed⟩
  · simp [singleLine, trimmed] at last
  · obtain ⟨whole, same, nonempty⟩ :=
      trimmed_of_mem_trimmedLines (by simp [trimmed] : line ∈ trimmedLines text)
    rw [singleLine, trimmed, List.concat_eq_append, intercalate_middle, List.flatMap_nil, List.append_nil,
      List.getLast?_append_of_ne_nil _ nonempty, same] at last
    exact trim_last last

theorem singleLine_singleLine (text : List Char) : singleLine (singleLine text) = singleLine text := by
  rw [singleLine, trimmedLines_of_newline_not_mem (newline_not_mem_singleLine text)]
  have trimmed : trim (singleLine text) = singleLine text :=
    trim_eq_self (fun _ => singleLine_head) fun _ => singleLine_last
  by_cases nothing : singleLine text = []
  · rw [nothing]
    rfl
  · rw [content_singleton (by rwa [trimmed]), trimmed, List.intercalate_singleton]

/-- A line that is broken between two of its characters other than white space gets one space for the
white space between them. -/
theorem singleLine_broken_iff {before after : List (List Char × LineEnd)}
    {front back gap gap' : List Char} {a b : Char} {stop' : LineEnd}
    (whole : ∀ line ∈ before ++ (front ++ a :: (gap ++ (gap' ++ b :: back)), stop') :: after,
      '\n' ∉ line.1)
    (stopA : isWhiteSpace a = false) (stopB : isWhiteSpace b = false)
    (blank : ∀ c ∈ gap, isWhiteSpace c = true) (blank' : ∀ c ∈ gap', isWhiteSpace c = true)
    (closed : Bool) (stop : LineEnd) :
    singleLine (written closed
        (before ++ (front ++ a :: gap, stop) :: (gap' ++ b :: back, stop') :: after))
      = singleLine (written closed
        (before ++ (front ++ a :: (gap ++ (gap' ++ b :: back)), stop') :: after))
      ↔ gap ++ gap' = [' '] := by
  have whole' : ∀ line ∈ before ++ (front ++ a :: gap, stop) :: (gap' ++ b :: back, stop') :: after,
      '\n' ∉ line.1 := by
    obtain ⟨first, rest⟩ := List.forall_mem_append.mp whole
    obtain ⟨here, last⟩ := List.forall_mem_cons.mp rest
    rw [← List.cons_append, ← List.append_assoc, List.mem_append, not_or] at here
    exact List.forall_mem_append.mpr ⟨first, List.forall_mem_cons.mpr ⟨here.1,
      List.forall_mem_cons.mpr ⟨here.2, last⟩⟩⟩
  -- The line, and its two parts where it is broken, without the white space around them.
  have line : trim (front ++ a :: (gap ++ (gap' ++ b :: back)))
      = trimStart front ++ a :: (gap ++ (gap' ++ b :: trimEnd back)) := by
    rw [trim_append_stop stopA, ← List.append_assoc, trimEnd_append_stop stopB, List.append_assoc]
  have left : trim (front ++ a :: gap) = trimStart front ++ [a] := by
    rw [trim_append_stop stopA, trimEnd_of_blank blank]
  have right : trim (gap' ++ b :: back) = b :: trimEnd back := by
    rw [trim_append_stop stopB, trimStart_of_blank blank', List.nil_append]
  have joined : trimmedLines (written closed
        (before ++ (front ++ a :: (gap ++ (gap' ++ b :: back)), stop') :: after))
      = content (before.map Prod.fst)
        ++ (trimStart front ++ a :: (gap ++ (gap' ++ b :: trimEnd back)))
          :: content (after.map Prod.fst) := by
    rw [trimmedLines_written closed _ whole, List.map_append, List.map_cons, content_append,
      content_cons, content_singleton (by simp [line]), line]
    rfl
  have broken : trimmedLines (written closed
        (before ++ (front ++ a :: gap, stop) :: (gap' ++ b :: back, stop') :: after))
      = content (before.map Prod.fst)
        ++ (trimStart front ++ [a]) :: (b :: trimEnd back) :: content (after.map Prod.fst) := by
    rw [trimmedLines_written closed _ whole', List.map_append, List.map_cons, List.map_cons,
      content_append, content_cons, content_cons (gap' ++ b :: back),
      content_singleton (by simp [left]), content_singleton (by simp [right]), left, right]
    rfl
  rw [singleLine, singleLine, joined, broken, intercalate_middle, intercalate_middle,
    List.flatMap_cons]
  constructor
  · intro same
    simp only [List.append_assoc, List.append_cancel_left_eq, List.cons_append, List.nil_append,
      List.cons.injEq, true_and] at same
    rw [← List.append_assoc] at same
    exact (List.append_cancel_right (same : [' '] ++ _ = gap ++ gap' ++ _)).symm
  · intro gaps
    rw [← List.append_assoc gap, gaps]
    simp

end Text

/-! ## What is forgotten -/

open Text in
/-- A one-line form has no line feed and no white space at either end, and is its own one-line form.
It stays the same when white space other than line feeds is put or taken away around lines, when lines
of white space are put or taken away, and however the lines of a text end.  When a line is broken
between two of its characters that are not white space, it stays the same only if exactly one space
stands between them; so it changes if nothing does. -/
theorem one_line_forms_forget_the_layout :
    (∀ s : String, '\n' ∉ (singleLine s).toList
        ∧ (∀ c, (singleLine s).toList.head? = some c → isWhiteSpace c = false)
        ∧ (∀ c, (singleLine s).toList.getLast? = some c → isWhiteSpace c = false)
        ∧ singleLine (singleLine s) = singleLine s)
      ∧ (∀ ls ls' : List (List Char × LineEnd), (∀ line ∈ ls.map Prod.fst, '\n' ∉ line) →
        Relation.EqvGen Relaid (ls.map Prod.fst) (ls'.map Prod.fst) → ∀ closed closed',
        singleLine (.ofList (written closed ls)) = singleLine (.ofList (written closed' ls')))
      ∧ ∀ (before after : List (List Char × LineEnd)) (front gap gap' back : List Char) (a b : Char)
        (closed : Bool) (stop stop' : LineEnd),
        let whole := before ++ (front ++ a :: (gap ++ (gap' ++ b :: back)), stop') :: after
        let broken := before ++ (front ++ a :: gap, stop) :: (gap' ++ b :: back, stop') :: after
        (∀ line ∈ whole, '\n' ∉ line.1) → isWhiteSpace a = false → isWhiteSpace b = false →
        (∀ c ∈ gap, isWhiteSpace c = true) → (∀ c ∈ gap', isWhiteSpace c = true) →
        (singleLine (.ofList (written closed broken)) = singleLine (.ofList (written closed whole))
          ↔ gap ++ gap' = [' ']) := by
  refine ⟨fun s => ⟨newline_not_mem_singleLine s, ?_, ?_, ?_⟩, ?_, ?_⟩
  · intro c first
    rw [singleLine, String.toList_ofList] at first
    exact singleLine_head first
  · intro c last
    rw [singleLine, String.toList_ofList] at last
    exact singleLine_last last
  · rw [singleLine, singleLine, String.toList_ofList, singleLine_singleLine]
  · intro ls ls' whole relaid closed closed'
    rw [singleLine, singleLine, String.toList_ofList, String.toList_ofList,
      singleLine_written_eq whole relaid closed closed']
  · intro before after front gap gap' back a b closed stop stop' whole broken inWhole stopA stopB
      blank blank'
    rw [singleLine, singleLine, String.toList_ofList, String.toList_ofList, String.ofList_inj]
    exact singleLine_broken_iff inWhole stopA stopB blank blank' closed stop

open Text in
/-- A query on three lines, laid out in two ways; and its field broken in two. -/
theorem layouts_of_a_query_are_forgotten :
    let start := "query Q \x7b".toList
    let stop := "\x7d".toList
    let ls := [(start, LineEnd.returnFeed), ([], .returnFeed), ("  hero".toList, .feed), (stop, .feed)]
    let ls' := [(start, LineEnd.feed), ("hero\t".toList, .returnFeed), (stop, .feed)]
    (∀ line ∈ ls.map Prod.fst, '\n' ∉ line)
      ∧ Relation.EqvGen Relaid (ls.map Prod.fst) (ls'.map Prod.fst)
      ∧ singleLine (.ofList (written false ls)) = singleLine (.ofList (written true ls'))
      ∧ singleLine (.ofList (written true
          [(start, .feed), ("he".toList, .feed), ("ro".toList, .feed), (stop, .feed)]))
        ≠ singleLine (.ofList (written true
          [(start, .feed), ("hero".toList, .feed), (stop, .feed)])) := by
  intro start stop ls ls'
  have whole : ∀ line ∈ ls.map Prod.fst, '\n' ∉ line := by decide
  have relaid : Relation.EqvGen Relaid (ls.map Prod.fst) (ls'.map Prod.fst) := by
    have blank : ∀ {text : List Char}, (text.all fun c => isWhiteSpace c && c != '\n') = true →
        Blank text := by
      intro text all c mem
      simpa using List.all_eq_true.mp all c mem
    have inserted : Relaid [start, "  hero".toList, stop] (ls.map Prod.fst) :=
      .insert [start] ["  hero".toList, stop] (blank rfl)
    have indented : Relaid [start, "hero".toList, stop] [start, "  hero".toList, stop] :=
      @Relaid.pad "  ".toList [] [start] "hero".toList [stop] (blank rfl) (blank rfl)
    have followed : Relaid [start, "hero".toList, stop] (ls'.map Prod.fst) :=
      @Relaid.pad [] "\t".toList [start] "hero".toList [stop] (blank rfl) (blank rfl)
    exact .trans _ _ _ (.symm _ _ (.trans _ _ _ (.rel _ _ indented) (.rel _ _ inserted)))
      (.rel _ _ followed)
  obtain ⟨-, same, broken⟩ := one_line_forms_forget_the_layout
  refine ⟨whole, relaid, same ls ls' whole relaid false true, fun unnoticed => ?_⟩
  have gap := (broken [(start, .feed)] [(stop, .feed)] ['h'] [] [] ['o'] 'e' 'r' true .feed .feed
    (by decide) rfl rfl (by simp) (by simp)).mp unnoticed
  cases gap

end SelectionGraph
