import SelectionGraph.Document.Resolve
import SelectionGraph.Proofs.Language.Separated

/-!
# Spelled — directives that are written out behind a field, and read again

Marks and names are read back from their texts wherever what follows cannot go on with them.  From
there a query of one field is read token by token, with the directives that its tokens spell.

* `Token.IsName`               — names of the language;
* `Token.scan?_mark`, `scan?_name`, `scan?_ignored` — what a text that starts with one is read as;
* `Token.Spells`               — texts that have certain tokens, whatever stands behind them;
* `Reader.bind_of_reads`       — a reader goes on from what another leaves;
* `Directive.Spelled`          — tokens that are read as a directive, whatever follows them;
* `Directive.readBehind?`      — the directives of a field, read from the text behind its name;
* `Directive.readBehind?_of_spelled` — they are those that the text spells.
-/

namespace SelectionGraph

/-! ## Tokens -/

namespace Token

/-- A letter or an underscore, and then letters, underscores and digits. -/
def IsName (n : Name) : Prop :=
  n.toList.head?.any isNameStart = true ∧ n.toList.all isNamePart = true

instance (n : Name) : Decidable (IsName n) := inferInstanceAs (Decidable (_ ∧ _))

variable {c : Char}

/-- What no mark is, a character that is a mark is not. -/
theorem of_isPunctuator {p : Char → Bool} (mark : isPunctuator c = true)
    (none : ['!', '$', '&', '(', ')', ':', '=', '@', '[', ']', '\x7b', '|', '\x7d'].all
      (fun d => !p d) = true) : p c = false := by
  have no := List.all_eq_true.mp none c (List.contains_iff_mem.mp mark)
  rwa [Bool.not_eq_true'] at no

/-- Where nothing is skipped, the token that a text starts with is read, and then the rest. -/
theorem scan?_of_next {text rest : List Char} {token : Token} (comment : c ≠ '#')
    (ignored : isIgnored c = false) (starts : nextToken? (c :: text) = some (token, rest)) :
    scan? (c :: text) = (scan? rest).map (token :: ·) := by
  refine scan?_of_starts ?_
  rw [skipIgnored, if_neg Bool.false_ne_true, if_neg comment, if_neg (Bool.eq_false_iff.mp ignored)]
  exact starts

/-- A mark is a token by itself, whatever follows it. -/
theorem scan?_mark (mark : isPunctuator c = true) (rest : List Char) :
    scan? (c :: rest) = (scan? rest).map (punctuator c :: ·) := by
  have other : ∀ d, isPunctuator d = false → c ≠ d := by
    rintro d no rfl
    exact Bool.false_ne_true (no.symm.trans mark)
  refine scan?_of_next (other '#' (by decide)) (of_isPunctuator mark (by decide)) ?_
  rw [nextToken?_other (other '.' (by decide)) (other '"' (by decide)), if_pos mark]

/-- A name ends where a character stands that is no part of one. -/
theorem scan?_name {n : Name} (named : IsName n) {rest : List Char}
    (stop : rest.head?.any isNamePart = false) :
    scan? (n.toList ++ rest) = (scan? rest).map (name n :: ·) := by
  obtain ⟨starts, parts⟩ := named
  obtain ⟨d, more, letters⟩ : ∃ d more, n.toList = d :: more := by
    cases letters : n.toList with
    | nil => rw [letters] at starts; cases starts
    | cons d more => exact ⟨d, more, rfl⟩
  rw [letters] at starts parts
  have start : isNameStart d = true := starts
  have other : ∀ e, isNameStart e = false → d ≠ e := by
    rintro e no rfl
    exact Bool.false_ne_true (no.symm.trans start)
  have noMark : isPunctuator d = false := by
    rw [Bool.eq_false_iff]
    intro mark
    exact Bool.false_ne_true ((of_isPunctuator mark (by decide)).symm.trans start)
  have notIgnored : isIgnored d = false := by
    rw [Bool.eq_false_iff]
    intro ignored
    exact Bool.false_ne_true ((Separates.not_isNameStart (.inl ignored)).symm.trans start)
  -- The name takes all of its own characters, and none of the rest.
  have all : ∀ e ∈ more, isNamePart e = true :=
    fun e mem => List.all_eq_true.mp parts e (List.mem_cons_of_mem _ mem)
  have none : rest.takeWhile isNamePart = [] ∧ rest.dropWhile isNamePart = rest := by
    cases rest with
    | nil => exact ⟨rfl, rfl⟩
    | cons e rest =>
      have no : isNamePart e = false := stop
      simp [no]
  rw [letters, List.cons_append]
  refine scan?_of_next (other '#' (by decide)) notIgnored ?_
  rw [nextToken?_other (other '.' (by decide)) (other '"' (by decide)),
    if_neg (Bool.eq_false_iff.mp noMark), if_pos start, List.takeWhile_append_of_pos all,
    List.dropWhile_append_of_pos all, none.1, none.2, List.append_nil, ← letters, String.ofList_toList]

/-- What means nothing is read past. -/
theorem scan?_ignored (ignored : isIgnored c = true) (rest : List Char) :
    scan? (c :: rest) = scan? rest := by
  have comment : c ≠ '#' := by
    rintro rfl
    cases ignored
  have skip : skipIgnored false (c :: rest) = skipIgnored false rest := by
    simp [skipIgnored, comment, ignored]
  have ends : endsInComment false (c :: rest) = endsInComment false rest := by
    simp [endsInComment, comment]
  refine Option.ext fun tokens => ?_
  rw [scan?_eq_some_iff, scan?_eq_some_iff]
  exact exists_congr fun after =>
    ⟨fun h => h.of_skipped skip.symm ends.symm, fun h => h.of_skipped skip ends⟩

/-- A text that is read as these tokens, whatever stands behind it. -/
def Spells (text : List Char) (tokens : List Token) : Prop :=
  ∀ rest, scan? (text ++ rest) = (scan? rest).map (tokens ++ ·)

namespace Spells

variable {text : List Char} {tokens : List Token}

theorem nil : Spells [] [] := by
  intro rest
  exact Option.map_id'.symm

theorem mark (isMark : isPunctuator c = true) (h : Spells text tokens) :
    Spells (c :: text) (punctuator c :: tokens) := by
  intro rest
  rw [List.cons_append, scan?_mark isMark, h, Option.map_map]
  rfl

theorem ignored (isIgnored : isIgnored c = true) (h : Spells text tokens) :
    Spells (c :: text) tokens := by
  intro rest
  rw [List.cons_append, scan?_ignored isIgnored, h]

/-- A name is spelled by its text where no part of a name stands behind it. -/
theorem name {n : Name} (named : IsName n) (stop : isNamePart c = false)
    (h : Spells (c :: text) tokens) : Spells (n.toList ++ c :: text) (.name n :: tokens) := by
  intro rest
  have stops : (c :: text ++ rest).head?.any isNamePart = false := stop
  rw [List.append_assoc, scan?_name named stops, h, Option.map_map]
  rfl

theorem append {more : List Char} {others : List Token} (h : Spells text tokens)
    (h' : Spells more others) : Spells (text ++ more) (tokens ++ others) := by
  intro rest
  rw [List.append_assoc, h, h', Option.map_map]
  exact Option.map_congr fun later _ => (List.append_assoc tokens others later).symm

/-- Texts that stand one behind the other. -/
theorem flatMap {α : Type} {as : List α} {write : α → List Char} {spell : α → List Token}
    (h : ∀ a ∈ as, Spells (write a) (spell a)) : Spells (as.flatMap write) (as.flatMap spell) := by
  induction as with
  | nil => exact nil
  | cons a as ih =>
    obtain ⟨first, later⟩ := List.forall_mem_cons.mp h
    exact first.append (ih later)

/-- The text by itself has these tokens. -/
theorem scan?_eq (h : Spells text tokens) : scan? text = some tokens := by
  have whole := h []
  rw [List.append_nil, show scan? [] = some [] from scan?_of_skipped rfl] at whole
  rw [whole, Option.map_some, List.append_nil]

end Spells
end Token

/-! ## Readers -/

namespace Reader

variable {α β : Type} {tokens left : List Token}

/-- A reader goes on from what another leaves. -/
theorem bind_of_reads {p : Reader α} {a : α} (reads : p tokens = some (a, left))
    (next : α → Reader β) : (p >>= next) tokens = next a left := by
  change (p tokens).bind _ = _
  rw [reads]
  rfl

theorem accept_other {t token : Token} (other : t ≠ token) (rest : List Token) :
    accept token (t :: rest) = some (false, t :: rest) :=
  if_neg other

/-- One item between two tokens. -/
theorem between_one {opening close : Token} {item : Reader α} {a : α} {first : Token}
    {tokens rest : List Token} (other : first ≠ close)
    (reads : item (first :: tokens) = some (a, close :: rest))
    (shorter : rest.length < tokens.length) :
    between opening close item (opening :: first :: tokens) = some ([a], rest) := by
  have taken : expect opening (opening :: first :: tokens) = some ((), first :: tokens) :=
    if_pos rfl
  have one : upTo close item (first :: tokens) = some ([a], rest) := by
    rw [upTo, if_neg other, reads]
    dsimp only
    rw [if_pos (by simpa using shorter), upTo, if_pos rfl]
    rfl
  rw [between, bind_of_reads taken, bind_of_reads one]
  rfl

/-- Nothing is between two tokens of which the first is not there. -/
theorem betweenOrNone_other {opening close t : Token} {item : Reader α} (other : t ≠ opening)
    (rest : List Token) : betweenOrNone opening close item (t :: rest) = some ([], t :: rest) := by
  have no : next? opening (t :: rest) = some (false, t :: rest) := by
    simp [next?, other]
  rw [betweenOrNone, bind_of_reads no]
  rfl

theorem betweenOrNone_one {opening close : Token} {item : Reader α} {tokens rest : List Token}
    {as : List α} (reads : between opening close item (opening :: tokens) = some (as, rest)) :
    betweenOrNone opening close item (opening :: tokens) = some (as, rest) := by
  have yes : next? opening (opening :: tokens) = some (true, opening :: tokens) := by
    simp [next?]
  rw [betweenOrNone, bind_of_reads yes]
  exact reads

end Reader

/-! ## Directives behind a field -/

section Directives

open Grammar (mark)

/-- Tokens that are read as a directive behind its mark, whatever follows them. -/
def Directive.Spelled (tokens : List Token) (d : Directive) : Prop :=
  ∀ depth rest, Grammar.directive depth (tokens ++ rest) = some (d, rest)

/-- A directive whose one argument is a variable. -/
theorem Directive.spelled_variable (n argument value : Name) :
    Directive.Spelled [.name n, mark '(', .name argument, mark ':', mark '$', .name value, mark ')']
      ⟨n, [⟨argument, .var value⟩]⟩ := by
  intro depth rest
  have valued : Grammar.argument depth (.name argument :: mark ':' :: mark '$' :: .name value ::
      mark ')' :: rest) = some (⟨argument, .var value⟩, mark ')' :: rest) := by
    cases depth <;> rfl
  have listed : Grammar.arguments depth (mark '(' :: .name argument :: mark ':' :: mark '$' ::
      .name value :: mark ')' :: rest) = some ([⟨argument, .var value⟩], rest) := by
    refine Reader.betweenOrNone_one (Reader.between_one ?_ valued ?_)
    · simp
    · simp only [List.length_cons]
      omega
  change Grammar.directive depth (.name n :: mark '(' :: .name argument :: mark ':' :: mark '$' ::
    .name value :: mark ')' :: rest) = _
  rw [Grammar.directive, Reader.bind_of_reads (p := Reader.name) rfl, Reader.bind_of_reads listed]
  rfl

variable {α : Type} {spell : α → List Token} {directive : α → Directive} {as : List α}

/-- Directives that stand one behind the other, up to a token that is not the mark of one. -/
theorem Grammar.directives_of_spelled (spelled : ∀ a ∈ as, Directive.Spelled (spell a) (directive a))
    (depth : Nat) {t : Token} (other : t ≠ mark '@') (rest : List Token) :
    Grammar.directives depth (as.flatMap (fun a => mark '@' :: spell a) ++ t :: rest)
      = some (as.map directive, t :: rest) := by
  induction as with
  | nil => simp [Grammar.directives, Reader.ledBy, other]
  | cons a as ih =>
    obtain ⟨first, later⟩ := List.forall_mem_cons.mp spelled
    have more := ih later
    rw [Grammar.directives] at more ⊢
    rw [List.flatMap_cons, List.cons_append, List.cons_append, List.append_assoc, Reader.ledBy,
      if_pos rfl, first]
    dsimp only
    rw [if_pos (by simp), more]
    rfl

/-- A field with directives, at the end of a selection set. -/
theorem Grammar.selection_of_spelled (spelled : ∀ a ∈ as, Directive.Spelled (spell a) (directive a))
    (depth : Nat) (field : Name) (rest : List Token) :
    Grammar.selection (depth + 1)
        (.name field :: (as.flatMap (fun a => mark '@' :: spell a) ++ mark '\x7d' :: rest))
      = some (.field none field [] (as.map directive) [], mark '\x7d' :: rest) := by
  -- What follows the name is the mark of a directive or the end of the set.
  obtain ⟨t, behind, follows, next⟩ : ∃ t behind,
      as.flatMap (fun a => mark '@' :: spell a) ++ mark '\x7d' :: rest = t :: behind
        ∧ (t = mark '@' ∨ t = mark '\x7d') := by
    cases as with
    | nil => exact ⟨_, _, rfl, .inr rfl⟩
    | cons a as => exact ⟨_, _, rfl, .inl rfl⟩
  have other : ∀ token, mark '@' ≠ token → mark '\x7d' ≠ token → t ≠ token := by
    rintro token apart apart'
    obtain rfl | rfl := next
    · exact apart
    · exact apart'
  have listed := Grammar.directives_of_spelled spelled depth (t := mark '\x7d') (by decide) rest
  have unlabelled := Reader.accept_other (other (mark ':') (by decide) (by decide)) behind
  have unargued : Grammar.arguments depth (t :: behind) = some ([], t :: behind) :=
    Reader.betweenOrNone_other (other (mark '(') (by decide) (by decide)) behind
  have plain : Reader.accept .ellipsis (.name field :: t :: behind)
      = some (false, .name field :: t :: behind) := Reader.accept_other (by simp) _
  have bare : Reader.betweenOrNone (mark '\x7b') (mark '\x7d') (Grammar.selection depth)
      (mark '\x7d' :: rest) = some ([], mark '\x7d' :: rest) :=
    Reader.betweenOrNone_other (by decide) rest
  rw [follows] at listed ⊢
  rw [Grammar.selection, Reader.bind_of_reads plain, if_neg Bool.false_ne_true,
    Reader.bind_of_reads (p := Reader.name) rfl, Reader.bind_of_reads unlabelled]
  dsimp only
  rw [if_neg Bool.false_ne_true, Reader.bind_of_reads (p := pure none) rfl,
    Reader.bind_of_reads unargued, Reader.bind_of_reads listed, Reader.bind_of_reads bare]
  rfl

/-- The tokens of a query of one field with directives. -/
def Grammar.queryOf (field : Name) (behind : List Token) : List Token :=
  mark '\x7b' :: .name field :: (behind ++ [mark '\x7d'])

/-- A query of one field is read to its end. -/
theorem Grammar.definition_of_spelled (spelled : ∀ a ∈ as, Directive.Spelled (spell a) (directive a))
    (depth : Nat) (field : Name) :
    Grammar.definition (depth + 1)
        (queryOf field (as.flatMap fun a => mark '@' :: spell a))
      = some (.operation ⟨.query, none, [], [], [.field none field [] (as.map directive) []]⟩, []) := by
  have selected := Grammar.selection_of_spelled spelled depth field []
  have set : Grammar.selectionSet (depth + 1) (queryOf field (as.flatMap fun a => mark '@' :: spell a))
      = some ([.field none field [] (as.map directive) []], []) := by
    refine Reader.between_one ?_ selected ?_
    · simp
    · simp
  have opened : Reader.next? (mark '\x7b') (queryOf field (as.flatMap fun a => mark '@' :: spell a))
      = some (true, queryOf field (as.flatMap fun a => mark '@' :: spell a)) := by
    simp [Reader.next?, queryOf]
  rw [Grammar.definition, Reader.bind_of_reads opened, if_pos rfl, Reader.bind_of_reads set]
  rfl

end Directives

/-! ## Documents of one definition -/

/-- A text whose tokens are those of one definition is a source of it alone. -/
theorem Written.Source.read?_one {text : String} {t : Token} {tokens : List Token}
    {d : Written.Definition} (scanned : Token.scan? text.toList = some (t :: tokens))
    (reads : Grammar.definition (tokens.length + 1) (t :: tokens) = some (d, [])) :
    ∃ written, read? text = some [⟨d, written⟩] := by
  obtain ⟨lexemes, lexed, heads⟩ := Option.map_eq_some_iff.mp scanned
  have length : lexemes.length = tokens.length + 1 := by
    rw [← List.length_map (f := Lexeme.token), heads, List.length_cons]
  have some_ : lexemes.isEmpty = false := by
    cases lexemes with
    | nil => cases heads
    | cons => rfl
  have one : ofLexemes? lexemes
      = some [⟨d, String.ofList (Lexeme.sourceText (lexemes.take lexemes.length))⟩] := by
    rw [ofLexemes?, if_neg (Bool.eq_false_iff.mp some_), heads, length, reads]
    dsimp only
    rw [List.length_nil, Nat.sub_zero, if_pos (Nat.succ_pos _), ← length, List.drop_length,
      ofLexemes?]
    rfl
  refine ⟨String.ofList (Lexeme.sourceText (lexemes.take lexemes.length)), ?_⟩
  rw [read?, lexed]
  change (ofLexemes? lexemes).bind _ = _
  rw [one]
  rfl

/-! ## Directives behind a field -/

/-- The directives of a field of the query root, when `text` is written behind its name. -/
def Directive.readBehind? (schema : Schema) (field : Name) (text : String) :
    Option (List Directive) := do
  let document ← Document.read? schema ("\x7b " ++ field ++ text ++ " \x7d")
  match (document.operation? none).map (fun o => o.definition.selections) with
  | some [Selection.field f] => some f.directives
  | _ => none

section Behind

variable {schema : Schema} {root field : Name} {found : FieldDefinition} {α : Type}
  {write : α → String} {spell : α → List Token} {directive : α → Directive} {as : List α}

/-- A query of one field that is written with spaces between its parts has the tokens of these. -/
theorem Token.spells_query (named : Token.IsName field)
    (spaced : ∀ a ∈ as, ∃ more, (write a).toList = ' ' :: more)
    (spells : ∀ a ∈ as, Token.Spells (write a).toList (Grammar.mark '@' :: spell a)) :
    Token.Spells ("\x7b " ++ field ++ String.join (as.map write) ++ " \x7d").toList
      (Grammar.queryOf field (as.flatMap fun a => Grammar.mark '@' :: spell a)) := by
  have close : Token.Spells [' ', '\x7d'] [Grammar.mark '\x7d'] :=
    .ignored (by decide) (.mark (by decide) .nil)
  have behind := (Token.Spells.flatMap spells).append close
  -- A space stands behind the name of the field, with directives or without.
  obtain ⟨more, space⟩ : ∃ more,
      as.flatMap (fun a => (write a).toList) ++ [' ', '\x7d'] = ' ' :: more := by
    cases as with
    | nil => exact ⟨_, rfl⟩
    | cons a as =>
      obtain ⟨more, space⟩ := spaced a List.mem_cons_self
      rw [List.flatMap_cons, space]
      exact ⟨_, rfl⟩
  have text : ("\x7b " ++ field ++ String.join (as.map write) ++ " \x7d").toList
      = '\x7b' :: ' ' :: (field.toList ++ ' ' :: more) := by
    rw [← space]
    simp [String.toList_join, List.flatMap_map]
  rw [space] at behind
  rw [text]
  exact .mark (by decide) (.ignored (by decide) (.name named (by decide) behind))

/-- Where the query root has the field, its directives are those that the text spells. -/
theorem Directive.readBehind?_of_spelled (queried : schema.root? .query = some root)
    (known : schema.fieldOf? root field = some found) (named : Token.IsName field)
    (spaced : ∀ a ∈ as, ∃ more, (write a).toList = ' ' :: more)
    (spells : ∀ a ∈ as, Token.Spells (write a).toList (Grammar.mark '@' :: spell a))
    (spelled : ∀ a ∈ as, Directive.Spelled (spell a) (directive a)) :
    readBehind? schema field (String.join (as.map write)) = some (as.map directive) := by
  obtain ⟨written, read⟩ := Written.Source.read?_one (Token.spells_query named spaced spells).scan?_eq
    (Grammar.definition_of_spelled spelled _ field)
  have resolved : Document.read? schema ("\x7b " ++ field ++ String.join (as.map write) ++ " \x7d")
      = some ⟨[⟨⟨.query, none, [], [], root, [.field ⟨none, found, [], as.map directive, []⟩]⟩,
        some written⟩], []⟩ := by
    rw [Document.read?, read]
    simp [Document.ofSource, Document.addDefinition, Document.resolveOperation, queried,
      Selection.resolveAll, Selection.resolve, known, Document.admits]
  rw [readBehind?, resolved]
  rfl

end Behind

end SelectionGraph
