import SelectionGraph.Proofs.Language.Separated
import SelectionGraph.Proofs.Text.Lines

/-!
# OneLine — what the one-line form of a text keeps of its tokens

The one-line form puts a space where a text breaks a line.  Between two tokens that changes nothing;
at the end of a comment, and inside a block string, it does.

- `Text.trimmedLines_split`    : what a text starts with, up to its first trimmed line;
- `Text.BreaksBetweenTokens`   : every line is read by itself, and none but the last ends in a comment;
- `Text.scan?_singleLine`      : the one-line form of such a text has its tokens;
- `tokens_eq_of_singleLine_eq` : such texts have equal tokens where their one-line forms are equal.
-/

namespace SelectionGraph

namespace Text

open Token (Scans Separates)

/-! ## Lines and white space -/

/-- What a text starts with: white space, a trimmed line and the gap behind it.  Without a gap the
text ends. -/
theorem trimmedLines_split {text : List Char} (h : text ≠ []) :
    ∃ front line gap more, text = front ++ (line ++ (gap ++ more)) ∧ more.length < text.length ∧
      trimmedLines text = (if line = [] then [] else [line]) ++ trimmedLines more ∧
      (∀ c ∈ front, isWhiteSpace c = true) ∧ (∀ c ∈ gap, isWhiteSpace c = true) ∧
      (gap = [] → more = []) := by
  obtain ⟨whole, stop, more, htext, hlines, hstop, hlast⟩ := lines_split h
  obtain ⟨front, back, hwhole, hfront, hback⟩ := trim_split whole
  refine ⟨front, trim whole, back ++ stop, more, ?_, ?_, ?_, hfront, ?_, ?_⟩
  · rw [htext]
    conv_lhs => rw [hwhole]
    simp
  · cases stop with
    | nil =>
      rw [hlast rfl]
      exact List.length_pos_iff.mpr h
    | cons c stop =>
      rw [htext]
      simp only [List.length_append, List.length_cons]
      omega
  · by_cases hblank : trim whole = [] <;> simp [trimmedLines, hlines, hblank]
  · intro c hc
    exact (List.mem_append.mp hc).elim (hback c) (hstop c)
  · intro hgap
    exact hlast (List.append_eq_nil_iff.mp hgap).2

/-- A text without lines that say something is white space. -/
theorem isWhiteSpace_of_trimmedLines_nil {text : List Char} (h : trimmedLines text = []) :
    ∀ c ∈ text, isWhiteSpace c = true := by
  induction hn : text.length using Nat.strongRecOn generalizing text with
  | _ n ih =>
    by_cases hnil : text = []
    · simp [hnil]
    · obtain ⟨front, line, gap, more, htext, hshorter, hlines, hfront, hgap, -⟩ :=
        trimmedLines_split hnil
      obtain ⟨hline, hmore⟩ := List.append_eq_nil_iff.mp (hlines.symm.trans h)
      have hline : line = [] := by
        by_contra hne
        rw [if_neg hne] at hline
        cases hline
      intro c hc
      rw [htext, hline] at hc
      simp only [List.nil_append, List.mem_append] at hc
      obtain hc | hc | hc := hc
      · exact hfront c hc
      · exact hgap c hc
      · exact ih _ (hn ▸ hshorter) hmore rfl c hc

/-! ## White space is read as nothing -/

theorem nextToken?_whiteSpace {c : Char} (h : isWhiteSpace c = true) (more : List Char) :
    Token.nextToken? (c :: more) = none := by
  have hc : Separates c := .inr h
  have hminus : c ≠ '-' := hc.ne (by decide)
  rw [Token.nextToken?_other (hc.ne (by decide)) (hc.ne (by decide)), hc.not_isPunctuator,
    hc.not_isNameStart]
  simp [Token.number?, Token.sign, hminus, Token.digits?, hc.not_isDigit]

/-- White space, where it is read at all, takes no token with it. -/
theorem scans_of_cons_whiteSpace {after before : Bool} {c : Char} {more : List Char}
    {tokens : List Token} (hc : isWhiteSpace c = true) (h : Scans after before (c :: more) tokens) :
    Scans after (before && !StringValue.isLineTerminator c) more tokens := by
  cases before with
  | true => exact h.of_skipped rfl rfl
  | false =>
    have hmark : c ≠ '#' := by
      rintro rfl
      cases hc
    by_cases hignored : Token.isIgnored c = true
    · refine h.of_skipped ?_ ?_
      · simp [Token.skipIgnored, hmark, hignored]
      · simp [Token.endsInComment, hmark]
    · have hskip : Token.skipIgnored false (c :: more) = c :: more := by
        simp [Token.skipIgnored, hmark, hignored]
      cases h with
      | ignored skipped => simp [hskip] at skipped
      | token starts =>
        rw [hskip, nextToken?_whiteSpace hc] at starts
        cases starts

theorem scans_of_whiteSpace {after : Bool} {blank more : List Char} {tokens : List Token}
    (hblank : ∀ c ∈ blank, isWhiteSpace c = true) (h : Scans after false (blank ++ more) tokens) :
    Scans after false more tokens := by
  induction blank with
  | nil => exact h
  | cons c blank ih =>
    exact ih (fun d hd => hblank d (List.mem_cons_of_mem _ hd))
      (scans_of_cons_whiteSpace (hblank c List.mem_cons_self) h)

theorem no_tokens_of_whiteSpace {after before : Bool} {blank : List Char} {tokens : List Token}
    (hblank : ∀ c ∈ blank, isWhiteSpace c = true) (h : Scans after before blank tokens) :
    tokens = [] := by
  induction blank generalizing before with
  | nil =>
    cases h with
    | ignored => rfl
    | token starts => cases starts
  | cons c blank ih =>
    exact ih (fun d hd => hblank d (List.mem_cons_of_mem _ hd))
      (scans_of_cons_whiteSpace (hblank c List.mem_cons_self) h)

/-! ## The one-line form -/

/-- The lines of a text are broken between tokens: each is read by itself, and none but the last that
says something ends inside a comment. -/
structure BreaksBetweenTokens (text : List Char) : Prop where
  whole : ∀ line ∈ trimmedLines text, ∃ after tokens, Scans after false line tokens
  closed : ∀ line ∈ (trimmedLines text).dropLast, ∃ tokens, Scans false false line tokens

/-- It is enough that each line is read by itself and ends inside no comment. -/
theorem BreaksBetweenTokens.of_closed {text : List Char}
    (h : ∀ line ∈ trimmedLines text, ∃ tokens, Scans false false line tokens) :
    BreaksBetweenTokens text where
  whole line hline := ⟨false, h line hline⟩
  closed line hline := h line ((List.dropLast_sublist _).subset hline)

theorem singleLine_cons {text line : List Char} {more : List (List Char)}
    (h : trimmedLines text = line :: more) (hne : more ≠ []) :
    singleLine text = line ++ ' ' :: [' '].intercalate more := by
  obtain ⟨second, others, rfl⟩ := List.exists_cons_of_ne_nil hne
  rw [singleLine, h, List.intercalate_cons_cons]
  simp

theorem scans_singleLine {text : List Char} {after : Bool} {tokens : List Token}
    (h : Scans after false text tokens) (hbreaks : BreaksBetweenTokens text) :
    ∃ after, Scans after false (singleLine text) tokens := by
  induction hn : text.length using Nat.strongRecOn generalizing text tokens with
  | _ n ih =>
    by_cases hnil : text = []
    · subst hnil
      exact ⟨after, h⟩
    · obtain ⟨front, line, gap, more, htext, hshorter, hlines, hfront, hgap, hlast⟩ :=
        trimmedLines_split hnil
      rw [htext] at h
      have hline := scans_of_whiteSpace hfront h
      by_cases hblank : line = []
      · rw [if_pos hblank, List.nil_append] at hlines
        rw [hblank, List.nil_append] at hline
        have hmore := scans_of_whiteSpace hgap hline
        have hbreaks' : BreaksBetweenTokens more :=
          ⟨hlines ▸ hbreaks.whole, hlines ▸ hbreaks.closed⟩
        rw [singleLine, hlines]
        exact ih _ (hn ▸ hshorter) hmore hbreaks' rfl
      · rw [if_neg hblank, List.singleton_append] at hlines
        have hhead : ∀ c ∈ (gap ++ more).head?, Separates c := by
          cases gap with
          | nil => simp [hlast rfl]
          | cons c gap =>
            rintro _ ⟨⟩
            exact .inr (hgap c List.mem_cons_self)
        by_cases hend : trimmedLines more = []
        · -- The last line: what is behind it has no tokens, in a comment or not.
          obtain ⟨mid, first, hfirst⟩ := hbreaks.whole line (by simp [hlines])
          obtain ⟨others, rfl, hothers⟩ := (Token.scans_append_iff hfirst hhead).mp hline
          have hnone : others = [] := by
            refine no_tokens_of_whiteSpace (fun c hc => ?_) hothers
            exact (List.mem_append.mp hc).elim (hgap c) (isWhiteSpace_of_trimmedLines_nil hend c)
          subst hnone
          rw [singleLine, hlines, hend, List.intercalate_singleton, List.append_nil]
          exact ⟨mid, hfirst⟩
        · -- A line before others: the space in the place of the gap separates as well.
          have hdrop : (trimmedLines text).dropLast = line :: (trimmedLines more).dropLast := by
            rw [hlines, List.dropLast_cons_of_ne_nil hend]
          obtain ⟨first, hfirst⟩ := hbreaks.closed line (by simp [hdrop])
          obtain ⟨others, rfl, hothers⟩ := (Token.scans_append_iff hfirst hhead).mp hline
          have hbreaks' : BreaksBetweenTokens more :=
            ⟨fun l hl => hbreaks.whole l (by simp [hlines, hl]),
              fun l hl => hbreaks.closed l (by simp [hdrop, hl])⟩
          obtain ⟨after', hmore⟩ := ih _ (hn ▸ hshorter) (scans_of_whiteSpace hgap hothers) hbreaks' rfl
          refine ⟨after', ?_⟩
          rw [singleLine_cons hlines hend]
          refine (Token.scans_append_iff hfirst fun c hc => ?_).mpr
            ⟨others, rfl, hmore.of_skipped rfl rfl⟩
          obtain rfl := Option.some.inj hc
          exact .inl rfl

/-- The one-line form of a text whose lines are broken between tokens has the tokens of the text. -/
theorem scan?_singleLine {text : List Char} {tokens : List Token}
    (h : Token.scan? text = some tokens) (hbreaks : BreaksBetweenTokens text) :
    Token.scan? (singleLine text) = some tokens := by
  obtain ⟨after, hscans⟩ := Token.scan?_eq_some_iff.mp h
  exact Token.scan?_eq_some_iff.mpr (scans_singleLine hscans hbreaks)

end Text

/-- Two texts whose lines are broken between tokens, and which have one one-line form, are written
with the same tokens. -/
theorem tokens_eq_of_singleLine_eq {s t : String} (hs : (Token.scan? s.toList).isSome)
    (ht : (Token.scan? t.toList).isSome) (hsBreaks : Text.BreaksBetweenTokens s.toList)
    (htBreaks : Text.BreaksBetweenTokens t.toList) (h : singleLine s = singleLine t) :
    Token.scan? s.toList = Token.scan? t.toList := by
  obtain ⟨first, hfirst⟩ := Option.isSome_iff_exists.mp hs
  obtain ⟨second, hsecond⟩ := Option.isSome_iff_exists.mp ht
  have hline : Text.singleLine s.toList = Text.singleLine t.toList := String.ofList_injective h
  calc Token.scan? s.toList
      = Token.scan? (Text.singleLine s.toList) := by
        rw [hfirst, Text.scan?_singleLine hfirst hsBreaks]
    _ = Token.scan? (Text.singleLine t.toList) := by rw [hline]
    _ = Token.scan? t.toList := by rw [hsecond, Text.scan?_singleLine hsecond htBreaks]

/-- A labelled field, laid out in two ways. -/
theorem layouts_of_a_field_read_alike :
    Token.scan? "\x7b a:\n b\n\x7d".toList = Token.scan? "\x7b\n a: b \x7d".toList := by
  have hopen : Token.Scans false false "\x7b".toList [.punctuator '\x7b'] :=
    .token rfl (.ignored rfl rfl)
  have hlabel : Token.Scans false false "\x7b a:".toList
      [.punctuator '\x7b', .name "a", .punctuator ':'] :=
    .token rfl (.token rfl (.token rfl (.ignored rfl rfl)))
  have hname : Token.Scans false false "b".toList [.name "b"] := .token rfl (.ignored rfl rfl)
  have hclose : Token.Scans false false "\x7d".toList [.punctuator '\x7d'] :=
    .token rfl (.ignored rfl rfl)
  have hfield : Token.Scans false false "a: b \x7d".toList
      [.name "a", .punctuator ':', .name "b", .punctuator '\x7d'] :=
    .token rfl (.token rfl (.token rfl (.token rfl (.ignored rfl rfl))))
  have hfirst : Text.trimmedLines "\x7b a:\n b\n\x7d".toList =
      ["\x7b a:".toList, "b".toList, "\x7d".toList] := by decide +kernel
  have hsecond : Text.trimmedLines "\x7b\n a: b \x7d".toList =
      ["\x7b".toList, "a: b \x7d".toList] := by decide +kernel
  refine tokens_eq_of_singleLine_eq (by decide +kernel) (by decide +kernel)
    (.of_closed ?_) (.of_closed ?_) (by decide +kernel)
  · rw [hfirst]
    simpa using ⟨⟨_, hlabel⟩, ⟨_, hname⟩, ⟨_, hclose⟩⟩
  · rw [hsecond]
    simpa using ⟨⟨_, hopen⟩, ⟨_, hfield⟩⟩

-- A line that ends in a comment takes the next one with it: the two queries differ in their names and
-- fields, and their one-line forms do not.
example :
    singleLine "query #\nA # B\n\x7b a #\nb \x7d" = singleLine "query # A #\nB \x7b a # b\n\x7d" ∧
      Token.scan? "query #\nA # B\n\x7b a #\nb \x7d".toList ≠
        Token.scan? "query # A #\nB \x7b a # b\n\x7d".toList := by
  decide +kernel

end SelectionGraph
