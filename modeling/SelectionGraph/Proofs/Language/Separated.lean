import Mathlib.Data.List.Basic
import SelectionGraph.Language.Token
import SelectionGraph.Text.Lines

/-!
# Separated — texts that are read one after the other

A token ends where a character stands that cannot go on with it.  So two texts with such a character
between them are read one after the other, and the second only has to know whether the first has
ended inside a comment.

- `Token.nextToken?_length`  : every token takes a character;
- `Token.Separates`          : the characters that go on with no token;
- `Token.nextToken?_append`  : a token is the same one, whatever stands behind a separator;
- `Token.Scans`              : a text read to its end, from inside a comment or not, and where it
  ends;
- `Token.scans_append_iff`   : two texts with a separator between them.
-/

namespace SelectionGraph

namespace Token

open StringValue (isLineTerminator)

/-! ## Tokens take characters -/

theorem blockText?_length {text content rest : List Char}
    (h : StringValue.blockText? text = some (content, rest)) : rest.length < text.length := by
  fun_induction StringValue.blockText? text generalizing content with
  | case1 => cases h
  | case2 rest =>
    cases h
    simp only [List.length_cons]
    omega
  | case3 rest ih | case4 d rest _ _ ih =>
    obtain ⟨⟨inner, after⟩, hinner, heq⟩ := Option.map_eq_some_iff.mp h
    cases heq
    have := ih hinner
    simp only [List.length_cons]
    omega

theorem quotedUnits?_length {text rest : List Char} {units : List Nat}
    (h : StringValue.quotedUnits? text = some (units, rest)) : rest.length < text.length := by
  fun_induction StringValue.quotedUnits? text generalizing units with
  | case1 => cases h
  | case2 rest =>
    cases h
    simp
  | case3 p q r s rest ih =>
    obtain ⟨unit, hunit, h⟩ := Option.bind_eq_some_iff.mp h
    obtain ⟨⟨others, after⟩, hothers, heq⟩ := Option.bind_eq_some_iff.mp h
    cases heq
    have := ih hothers
    simp only [List.length_cons]
    omega
  | case4 d rest hhex ih =>
    obtain ⟨escaped, hescaped, h⟩ := Option.bind_eq_some_iff.mp h
    obtain ⟨⟨others, after⟩, hothers, heq⟩ := Option.bind_eq_some_iff.mp h
    cases heq
    have := ih hothers
    simp only [List.length_cons]
    omega
  | case5 => cases h
  | case6 d rest hquote hhex hescape _ hend =>
    rename_i ih
    obtain ⟨⟨others, after⟩, hothers, heq⟩ := Option.bind_eq_some_iff.mp h
    cases heq
    have := ih hothers
    simp only [List.length_cons]
    omega

theorem digits?_length {text digits rest : List Char} (h : digits? text = some (digits, rest)) :
    rest.length < text.length := by
  unfold digits? at h
  split at h
  · next hhead =>
    cases h
    cases text with
    | nil => cases hhead
    | cons d text =>
      have hd : d.isDigit = true := hhead
      rw [List.dropWhile_cons, if_pos hd]
      exact Nat.lt_succ_of_le ((List.dropWhile_sublist _).length_le)
  · cases h

theorem sign_length (signs text : List Char) : (sign signs text).2.length ≤ text.length := by
  unfold sign
  split
  · split <;> simp
  · simp

theorem fraction?_length {text part rest : List Char} (h : fraction? text = some (part, rest)) :
    rest.length ≤ text.length := by
  unfold fraction? at h
  split at h
  · obtain ⟨⟨digits, after⟩, hdigits, heq⟩ := Option.map_eq_some_iff.mp h
    cases heq
    exact Nat.le_succ_of_le (Nat.le_of_lt (digits?_length hdigits))
  · cases h
    exact Nat.le_refl _

theorem exponent?_length {text power rest : List Char} (h : exponent? text = some (power, rest)) :
    rest.length ≤ text.length := by
  unfold exponent? at h
  split at h
  · next c unsigned =>
    split at h
    · obtain ⟨⟨digits, after⟩, hdigits, heq⟩ := Option.map_eq_some_iff.mp h
      cases heq
      exact Nat.le_succ_of_le
        (Nat.le_trans (Nat.le_of_lt (digits?_length hdigits)) (sign_length _ unsigned))
    · cases h
      exact Nat.le_refl _
  · cases h
    exact Nat.le_refl _

theorem number?_length {text rest : List Char} {token : Token}
    (h : number? text = some (token, rest)) : rest.length < text.length := by
  have hsign := sign_length ['-'] text
  simp only [number?] at h
  obtain ⟨⟨whole, rest₁⟩, hwhole, h⟩ := Option.bind_eq_some_iff.mp h
  have := digits?_length hwhole
  split at h
  · cases h
  · obtain ⟨⟨part, rest₂⟩, hpart, h⟩ := Option.bind_eq_some_iff.mp h
    obtain ⟨⟨power, rest₃⟩, hpower, h⟩ := Option.bind_eq_some_iff.mp h
    have := fraction?_length hpart
    have := exponent?_length hpower
    split at h
    · cases h
    · cases h
      simp only at *
      omega

theorem nextToken?_length {text rest : List Char} {token : Token}
    (h : nextToken? text = some (token, rest)) : rest.length < text.length := by
  revert h
  fun_cases nextToken? text with
  | case1 rest =>
    rintro ⟨⟩
    simp only [List.length_cons]
    omega
  | case2 rest =>
    intro h
    obtain ⟨⟨value, after⟩, hvalue, heq⟩ := Option.map_eq_some_iff.mp h
    cases heq
    obtain ⟨⟨content, after⟩, hcontent, heq⟩ := Option.map_eq_some_iff.mp hvalue
    cases heq
    have := blockText?_length hcontent
    simp only [List.length_cons]
    omega
  | case3 rest hblock =>
    intro h
    obtain ⟨⟨value, after⟩, hvalue, heq⟩ := Option.map_eq_some_iff.mp h
    cases heq
    obtain ⟨⟨units, after⟩, hunits, heq⟩ := Option.map_eq_some_iff.mp hvalue
    cases heq
    exact Nat.lt_succ_of_lt (quotedUnits?_length hunits)
  | case4 =>
    rintro ⟨⟩
    simp
  | case5 =>
    rintro ⟨⟩
    exact Nat.lt_succ_of_le ((List.dropWhile_sublist _).length_le)
  | case6 => exact number?_length
  | case7 => nofun

theorem skipIgnored_length (inComment : Bool) (text : List Char) :
    (skipIgnored inComment text).length ≤ text.length := by
  fun_induction skipIgnored inComment text with
  | case1 => exact Nat.le_refl _
  | case5 => exact Nat.le_refl _
  | case2 | case3 | case4 =>
    rename_i ih
    exact Nat.le_succ_of_le ih

/-! ## What separates tokens -/

/-- White space and the characters that mean nothing: none of them goes on with a token. -/
def Separates (c : Char) : Prop :=
  isIgnored c = true ∨ Text.isWhiteSpace c = true

instance (c : Char) : Decidable (Separates c) := inferInstanceAs (Decidable (_ ∨ _))

namespace Separates

variable {c : Char}

theorem ne (h : Separates c) {d : Char} (hd : ¬ Separates d) : c ≠ d := by
  rintro rfl
  exact hd h

theorem code (h : Separates c) : c.toNat ≤ 32 ∨ c.toNat = 44 ∨ 0x85 ≤ c.toNat := by
  obtain h | h := h
  · simp only [isIgnored, Bool.or_eq_true, decide_eq_true_eq] at h
    obtain ((((rfl | rfl) | rfl) | rfl) | rfl) | h := h
    iterate 5 decide
    omega
  · simp only [Text.isWhiteSpace, Text.whiteSpaceRanges, List.any_cons, List.any_nil, Bool.or_eq_true,
      Bool.and_eq_true, decide_eq_true_eq, Bool.false_eq_true, or_false] at h
    omega

theorem not_isDigit (h : Separates c) : c.isDigit = false := by
  have := h.code
  simp only [Char.isDigit, Bool.and_eq_false_iff, decide_eq_false_iff_not, ge_iff_le,
    UInt32.le_iff_toNat_le]
  change ¬ 48 ≤ c.toNat ∨ ¬ c.toNat ≤ 57
  omega

theorem not_isNamePart (h : Separates c) : isNamePart c = false := by
  have hcode := h.code
  have hunderscore : c ≠ '_' := h.ne (by decide)
  have halpha : c.isAlpha = false := by
    change (decide (c.val ≥ 65 ∧ c.val ≤ 90)
      || (decide (c.val ≥ 97) && decide (c.val ≤ 122))) = false
    simp only [Bool.or_eq_false_iff, Bool.and_eq_false_iff, decide_eq_false_iff_not, ge_iff_le,
      UInt32.le_iff_toNat_le, not_and_or]
    change (¬ 65 ≤ c.toNat ∨ ¬ c.toNat ≤ 90) ∧ (¬ 97 ≤ c.toNat ∨ ¬ c.toNat ≤ 122)
    omega
  simp [isNamePart, isNameStart, halpha, hunderscore, h.not_isDigit]

theorem not_isNameStart (h : Separates c) : isNameStart c = false := by
  have := h.not_isNamePart
  simp only [isNamePart, Bool.or_eq_false_iff] at this
  exact this.1

theorem not_isPunctuator (h : Separates c) : isPunctuator c = false := by
  rw [isPunctuator, List.contains_eq_mem, decide_eq_false_iff_not]
  have hmarks : ∀ d ∈ ['!', '$', '&', '(', ')', ':', '=', '@', '[', ']', '\x7b', '|', '\x7d'],
      (!(isIgnored d || Text.isWhiteSpace d)) = true := List.all_eq_true.mp rfl
  intro hmem
  have hmark := hmarks c hmem
  rw [(Bool.or_eq_true _ _).mpr h] at hmark
  cases hmark

end Separates

theorem takeWhile_append_stop {p : Char → Bool} {c : Char} (hc : p c = false) (text more : List Char) :
    (text ++ c :: more).takeWhile p = text.takeWhile p := by
  induction text with
  | nil => simp [hc]
  | cons d text ih => simp [List.takeWhile_cons, ih]

theorem dropWhile_append_stop {p : Char → Bool} {c : Char} (hc : p c = false) (text more : List Char) :
    (text ++ c :: more).dropWhile p = text.dropWhile p ++ c :: more := by
  induction text with
  | nil => simp [hc]
  | cons d text ih =>
    simp only [List.cons_append, List.dropWhile_cons, ih]
    split <;> rfl

/-! ## A separator after a token changes nothing -/

theorem blockText?_append {text content rest : List Char} (more : List Char)
    (h : StringValue.blockText? text = some (content, rest)) :
    StringValue.blockText? (text ++ more) = some (content, rest ++ more) := by
  fun_induction StringValue.blockText? text generalizing content with
  | case1 => cases h
  | case2 rest =>
    cases h
    rfl
  | case3 rest ih =>
    obtain ⟨⟨inner, after⟩, hinner, heq⟩ := Option.map_eq_some_iff.mp h
    cases heq
    simp only [List.cons_append, StringValue.blockText?, ih hinner, Option.map_some]
  | case4 d rest hclose hescape ih =>
    obtain ⟨⟨inner, after⟩, hinner, heq⟩ := Option.map_eq_some_iff.mp h
    cases heq
    -- What is left holds the closing quotes, so the three characters after `d` are in sight.
    match rest, hinner with
    | [], hinner | [_], hinner | [_, _], hinner => simp [StringValue.blockText?] at hinner
    | a :: b :: e :: r, hinner =>
      have hmore := ih hinner
      simp only [List.cons_append] at hmore ⊢
      rw [StringValue.blockText?, hmore, Option.map_some]
      · rintro r' hd heq
        cases heq
        exact hclose _ hd rfl
      · rintro r' hd heq
        cases heq
        exact hescape _ hd rfl

theorem quotedUnits?_append {text rest : List Char} {units : List Nat} (more : List Char)
    (h : StringValue.quotedUnits? text = some (units, rest)) :
    StringValue.quotedUnits? (text ++ more) = some (units, rest ++ more) := by
  fun_induction StringValue.quotedUnits? text generalizing units with
  | case1 => cases h
  | case2 rest =>
    cases h
    rfl
  | case3 p q r s rest ih =>
    obtain ⟨unit, hunit, h⟩ := Option.bind_eq_some_iff.mp h
    obtain ⟨⟨others, after⟩, hothers, heq⟩ := Option.bind_eq_some_iff.mp h
    cases heq
    simp [StringValue.quotedUnits?, hunit, ih hothers]
  | case4 d rest hhex ih =>
    obtain ⟨escaped, hescaped, h⟩ := Option.bind_eq_some_iff.mp h
    obtain ⟨⟨others, after⟩, hothers, heq⟩ := Option.bind_eq_some_iff.mp h
    cases heq
    -- An escape of one letter is no `u`, whatever stands behind it.
    have hd : d ≠ 'u' := by
      rintro rfl
      cases hescaped
    simp only [List.cons_append]
    rw [StringValue.quotedUnits?]
    · simp [hescaped, ih hothers]
    · rintro p q r s rest' rfl
      exact absurd rfl hd
  | case5 => cases h
  | case6 d rest hquote hhex hescape _ hend =>
    rename_i ih
    obtain ⟨⟨others, after⟩, hothers, heq⟩ := Option.bind_eq_some_iff.mp h
    cases heq
    have hd : d ≠ '\\' := fun hd => hend (by simp [hd])
    simp only [List.cons_append]
    rw [StringValue.quotedUnits?]
    · rw [if_neg hend, ih hothers]
      rfl
    · exact hquote
    · exact fun _ _ _ _ _ hd' => absurd hd' hd
    · exact fun _ _ hd' => absurd hd' hd

/-! ### Numbers -/

theorem digits?_append {text digits rest : List Char} {c : Char} (more : List Char) (hc : Separates c)
    (h : digits? text = some (digits, rest)) :
    digits? (text ++ c :: more) = some (digits, rest ++ c :: more) := by
  unfold digits? at h ⊢
  split at h
  · next hhead =>
    cases h
    have hhead' : (text ++ c :: more).head?.any Char.isDigit = true := by
      cases text with
      | nil => cases hhead
      | cons d text => exact hhead
    rw [if_pos hhead', takeWhile_append_stop hc.not_isDigit, dropWhile_append_stop hc.not_isDigit]
  · cases h

theorem sign_append {signs text : List Char} (more : List Char) (h : text ≠ []) :
    sign signs (text ++ more) = ((sign signs text).1, (sign signs text).2 ++ more) := by
  cases text with
  | nil => exact absurd rfl h
  | cons d text =>
    simp only [List.cons_append, sign]
    split <;> rfl

theorem fraction?_append {text part rest : List Char} {c : Char} (more : List Char)
    (hc : Separates c) (h : fraction? text = some (part, rest)) :
    fraction? (text ++ c :: more) = some (part, rest ++ c :: more) := by
  unfold fraction? at h
  split at h
  · next text =>
    obtain ⟨⟨digits, after⟩, hdigits, heq⟩ := Option.map_eq_some_iff.mp h
    cases heq
    simp [fraction?, digits?_append more hc hdigits]
  · next hpoint =>
    cases h
    rw [fraction?]
    rintro rest hrest
    cases text with
    | nil => exact hc.ne (by decide) (List.cons.inj hrest).1
    | cons d text => exact hpoint text (by rw [(List.cons.inj hrest).1])

theorem exponent?_append {text power rest : List Char} {c : Char} (more : List Char)
    (hc : Separates c) (h : exponent? text = some (power, rest)) :
    exponent? (text ++ c :: more) = some (power, rest ++ c :: more) := by
  cases text with
  | nil =>
    cases h
    have he : c ≠ 'e' := hc.ne (by decide)
    have hE : c ≠ 'E' := hc.ne (by decide)
    simp [exponent?, he, hE]
  | cons d text =>
    simp only [List.cons_append, exponent?] at h ⊢
    split at h
    · next hmark =>
      obtain ⟨⟨digits, after⟩, hdigits, heq⟩ := Option.map_eq_some_iff.mp h
      cases heq
      have hne : text ≠ [] := by
        rintro rfl
        cases hdigits
      rw [if_pos hmark, sign_append _ hne]
      simp only [digits?_append more hc hdigits, Option.map_some]
    · next hmark =>
      cases h
      rw [if_neg hmark]
      rfl

theorem number?_append {text rest : List Char} {token : Token} {c : Char} (more : List Char)
    (hc : Separates c) (h : number? text = some (token, rest)) :
    number? (text ++ c :: more) = some (token, rest ++ c :: more) := by
  have hne : text ≠ [] := by
    rintro rfl
    cases h
  simp only [number?, sign_append (c :: more) hne] at h ⊢
  generalize sign ['-'] text = signed at h ⊢
  obtain ⟨s, unsigned⟩ := signed
  obtain ⟨⟨whole, rest₁⟩, hwhole, h⟩ := Option.bind_eq_some_iff.mp h
  dsimp only at h ⊢
  rw [Option.bind_eq_bind, digits?_append more hc hwhole, Option.bind_some]
  dsimp only
  split at h
  · cases h
  · next hzero =>
    rw [if_neg hzero]
    obtain ⟨⟨part, rest₂⟩, hpart, h⟩ := Option.bind_eq_some_iff.mp h
    rw [Option.bind_eq_bind, fraction?_append more hc hpart, Option.bind_some]
    obtain ⟨⟨power, rest₃⟩, hpower, h⟩ := Option.bind_eq_some_iff.mp h
    rw [exponent?_append more hc hpower, Option.bind_some]
    split at h
    · cases h
    · next hstop =>
      have hstop' : ¬ (rest₃ ++ c :: more).head?.any (fun c => isNameStart c || c = '.') := by
        cases rest₃ with
        | nil => simp [hc.not_isNameStart, hc.ne (d := '.') (by decide)]
        | cons d rest => exact hstop
      cases h
      rw [if_neg hstop']
      rfl

/-! ### Tokens -/

/-- What starts with neither a point nor a quote is a mark, a name or a number. -/
theorem nextToken?_other {d : Char} (hdot : d ≠ '.') (hquote : d ≠ '"') (rest : List Char) :
    nextToken? (d :: rest) =
      if isPunctuator d then some (punctuator d, rest)
      else if isNameStart d then
        some (name (String.ofList (d :: rest.takeWhile isNamePart)), rest.dropWhile isNamePart)
      else number? (d :: rest) := by
  rw [nextToken?]
  · exact fun _ hd => absurd hd hdot
  · exact fun _ hd => absurd hd hquote
  · exact hquote

theorem nextToken?_append {text rest : List Char} {token : Token} {c : Char} (more : List Char)
    (hc : Separates c) (h : nextToken? text = some (token, rest)) :
    nextToken? (text ++ c :: more) = some (token, rest ++ c :: more) := by
  revert h
  fun_cases nextToken? text with
  | case1 rest =>
    intro h
    cases h
    rfl
  | case2 rest =>
    intro h
    obtain ⟨⟨value, after⟩, hvalue, heq⟩ := Option.map_eq_some_iff.mp h
    cases heq
    obtain ⟨⟨content, after⟩, hcontent, heq⟩ := Option.map_eq_some_iff.mp hvalue
    cases heq
    simp [nextToken?, StringValue.block?, blockText?_append _ hcontent]
  | case3 rest hblock =>
    intro h
    obtain ⟨⟨value, after⟩, hvalue, heq⟩ := Option.map_eq_some_iff.mp h
    cases heq
    obtain ⟨⟨units, after⟩, hunits, heq⟩ := Option.map_eq_some_iff.mp hvalue
    cases heq
    simp only [List.cons_append]
    rw [nextToken?]
    · simp [StringValue.quoted?, quotedUnits?_append _ hunits]
    · rintro rest' heq
      match rest, heq with
      | [], heq => exact hc.ne (by decide) (List.cons.inj heq).1
      | [_], heq => exact hc.ne (by decide) (List.cons.inj (List.cons.inj heq).2).1
      | a :: b :: r, heq =>
        simp only [List.cons_append, List.cons.injEq] at heq
        exact hblock r (by rw [heq.1, heq.2.1])
  | case4 d rest hdots _ hquote hmark =>
    rintro ⟨⟩
    have hdot : d ≠ '.' := by rintro rfl; cases hmark
    rw [List.cons_append, nextToken?_other hdot hquote, if_pos hmark]
  | case5 d rest hdots _ hquote hmark hname =>
    rintro ⟨⟩
    have hdot : d ≠ '.' := by rintro rfl; cases hname
    rw [List.cons_append, nextToken?_other hdot hquote, if_neg hmark, if_pos hname,
      takeWhile_append_stop hc.not_isNamePart, dropWhile_append_stop hc.not_isNamePart]
  | case6 d rest hdots _ hquote hmark hname =>
    intro h
    have hdot : d ≠ '.' := by rintro rfl; cases h
    rw [List.cons_append, nextToken?_other hdot hquote, if_neg hmark, if_neg hname]
    exact number?_append more hc h
  | case7 => nofun

/-! ## Reading to the end -/

/-- Whether a text without tokens ends inside a comment; `inComment` says that it starts in one. -/
def endsInComment (inComment : Bool) : List Char → Bool
  | [] => inComment
  | c :: rest => endsInComment (if inComment then !isLineTerminator c else c = '#') rest

/-- `Scans before after text tokens`: a text that starts inside a comment, or not, is read to its
end as `tokens`, and ends inside a comment, or not. -/
inductive Scans (after : Bool) : Bool → List Char → List Token → Prop
  | ignored {before : Bool} {text : List Char} (skipped : skipIgnored before text = [])
      (ends : endsInComment before text = after) : Scans after before text []
  | token {before : Bool} {text rest : List Char} {token : Token} {tokens : List Token}
      (starts : nextToken? (skipIgnored before text) = some (token, rest))
      (more : Scans after false rest tokens) : Scans after before text (token :: tokens)

theorem scan?_of_skipped {text : List Char} (h : skipIgnored false text = []) :
    scan? text = some [] := by
  rw [scan?, Lexeme.scan?, h]
  rfl

theorem scan?_of_starts {text rest : List Char} {token : Token}
    (h : nextToken? (skipIgnored false text) = some (token, rest)) :
    scan? text = (scan? rest).map (token :: ·) := by
  have hne : skipIgnored false text ≠ [] := fun hnil => by rw [hnil] at h; cases h
  have hshorter : rest.length < text.length :=
    Nat.lt_of_lt_of_le (nextToken?_length h) (skipIgnored_length false text)
  rw [scan?, Lexeme.scan?, h]
  simp [List.isEmpty_iff, hne, hshorter, scan?, Function.comp_def]

/-- The tokens of a text are those it is read as, wherever it ends. -/
theorem scan?_eq_some_iff {text : List Char} {tokens : List Token} :
    scan? text = some tokens ↔ ∃ after, Scans after false text tokens := by
  constructor
  · intro h
    induction hn : text.length using Nat.strongRecOn generalizing text tokens with
    | _ n ih =>
      by_cases hskipped : skipIgnored false text = []
      · rw [scan?_of_skipped hskipped] at h
        cases h
        exact ⟨_, .ignored hskipped rfl⟩
      · cases hstarts : nextToken? (skipIgnored false text) with
        | none =>
          rw [scan?, Lexeme.scan?, hstarts] at h
          simp [hskipped] at h
        | some read =>
          obtain ⟨token, rest⟩ := read
          rw [scan?_of_starts hstarts] at h
          obtain ⟨others, hothers, rfl⟩ := Option.map_eq_some_iff.mp h
          have hshorter : rest.length < text.length :=
            Nat.lt_of_lt_of_le (nextToken?_length hstarts) (skipIgnored_length false text)
          obtain ⟨after, hmore⟩ := ih _ (hn ▸ hshorter) hothers rfl
          exact ⟨after, .token hstarts hmore⟩
  · rintro ⟨after, h⟩
    -- Behind a token a text is read from outside comments, as it is at its start.
    generalize hbefore : false = before at h
    induction h with
    | ignored skipped ends =>
      subst hbefore
      exact scan?_of_skipped skipped
    | token starts more ih =>
      subst hbefore
      rw [scan?_of_starts starts, ih rfl]
      rfl

/-! ### One text after the other -/

theorem skipIgnored_append (inComment : Bool) (text more : List Char) :
    skipIgnored inComment (text ++ more) =
      if skipIgnored inComment text = [] then skipIgnored (endsInComment inComment text) more
      else skipIgnored inComment text ++ more := by
  induction text generalizing inComment with
  | nil => simp [skipIgnored, endsInComment]
  | cons c text ih =>
    cases inComment with
    | true => simpa [skipIgnored, endsInComment] using ih _
    | false =>
      by_cases hmark : c = '#'
      · simpa [skipIgnored, endsInComment, hmark] using ih _
      · by_cases hignored : isIgnored c = true
        · simpa [skipIgnored, endsInComment, hmark, hignored] using ih _
        · simp [skipIgnored, hmark, hignored]

theorem endsInComment_append (inComment : Bool) (text more : List Char) :
    endsInComment inComment (text ++ more) = endsInComment (endsInComment inComment text) more := by
  induction text generalizing inComment with
  | nil => rfl
  | cons c text ih => exact ih _

/-- What is read depends only on what is left after the characters that mean nothing, and on where
these end. -/
theorem Scans.of_skipped {after before before' : Bool} {text text' : List Char} {tokens : List Token}
    (h : Scans after before text tokens) (hskip : skipIgnored before' text' = skipIgnored before text)
    (hends : endsInComment before' text' = endsInComment before text) :
    Scans after before' text' tokens := by
  cases h with
  | ignored skipped ends => exact .ignored (hskip.trans skipped) (hends.trans ends)
  | token starts more => exact .token (hskip ▸ starts) more

/-- A text and another one behind a separator are read one after the other. -/
theorem scans_append_iff {after mid before : Bool} {text more : List Char} {first tokens : List Token}
    (h : Scans mid before text first) (hmore : ∀ c ∈ more.head?, Separates c) :
    Scans after before (text ++ more) tokens ↔
      ∃ others, tokens = first ++ others ∧ Scans after mid more others := by
  induction h generalizing tokens with
  | @ignored before text skipped ends =>
    -- The first text holds no token: what is read is read of the second, from where the first ends.
    have hskip : skipIgnored before (text ++ more) = skipIgnored mid more := by
      rw [skipIgnored_append, if_pos skipped, ends]
    have hends : endsInComment before (text ++ more) = endsInComment mid more := by
      rw [endsInComment_append, ends]
    constructor
    · exact fun h => ⟨tokens, rfl, h.of_skipped hskip.symm hends.symm⟩
    · rintro ⟨_, rfl, h⟩
      exact h.of_skipped hskip hends
  | @token before text rest token first starts _ ih =>
    have hne : skipIgnored before text ≠ [] := fun hnil => by rw [hnil] at starts; cases starts
    have hskip : skipIgnored before (text ++ more) = skipIgnored before text ++ more := by
      rw [skipIgnored_append, if_neg hne]
    have hstarts : nextToken? (skipIgnored before (text ++ more)) = some (token, rest ++ more) := by
      rw [hskip]
      cases more with
      | nil => simpa using starts
      | cons c more => exact nextToken?_append more (hmore c rfl) starts
    constructor
    · intro h
      cases h with
      | ignored skipped => simp [hskip, hne] at skipped
      | token starts' h =>
        obtain ⟨rfl, rfl⟩ := Prod.mk.inj (Option.some.inj (hstarts.symm.trans starts'))
        obtain ⟨others, rfl, hmore⟩ := ih.mp h
        exact ⟨others, rfl, hmore⟩
    · rintro ⟨others, rfl, h⟩
      exact .token hstarts (ih.mpr ⟨others, rfl, h⟩)

end Token
end SelectionGraph
