import SelectionGraph.Proofs.Text.Lines
import SelectionGraph.Session.Identifier

/-!
# Identifier — the stream that is digested can be taken apart again

An identifier is the digest of one stream of bytes, in which the texts of an operation and of its
fragments follow one another with nothing but a line feed between them: no lengths, no marks.

- `OperationIdentifier.stream`  : the bytes that are digested, piece by piece;
- `toList_identifierText`       : the digested text is its pieces, joined by line feeds;
- `identifiers_are_unambiguous` : streams are equal exactly where all the one-line forms are.
-/

namespace SelectionGraph

/-! ## The stream -/

/-- The bytes of a text in UTF-8. -/
def utf8 (text : String) : List UInt8 :=
  text.toUTF8.data.toList

theorem utf8_append (s t : String) : utf8 (s ++ t) = utf8 s ++ utf8 t := by
  simp [utf8, String.toUTF8]

theorem utf8_inj {s t : String} : utf8 s = utf8 t ↔ s = t := by
  refine ⟨fun h => ?_, congrArg utf8⟩
  have hdata : s.toByteArray.data = t.toByteArray.data := Array.toList_inj.mp h
  exact String.toByteArray_inj.mp (ByteArray.ext hdata)

/-! ### The text -/

theorem identifierText_cons (operation first : String) (rest : List String) :
    identifierText operation (first :: rest) =
      singleLine operation ++ ("\n" ++ identifierText first rest) := by
  simp [identifierText, String.join_cons, String.append_assoc]

theorem toList_identifierText (operation : String) (fragments : List String) :
    (identifierText operation fragments).toList =
      ['\n'].intercalate ((operation :: fragments).map fun source => (singleLine source).toList) := by
  induction fragments generalizing operation with
  | nil => simp [identifierText, String.join_nil]
  | cons first rest ih =>
    rw [identifierText_cons, String.toList_append, String.toList_append, ih, List.map_cons,
      List.map_cons, List.map_cons, List.intercalate_cons_cons, List.append_assoc]
    rfl

/-- Its lines are the one-line forms: the line feeds between them are the only ones. -/
theorem splitOn_identifierText (operation : String) (fragments : List String) :
    (identifierText operation fragments).toList.splitOn '\n' =
      (operation :: fragments).map fun source => (singleLine source).toList := by
  rw [toList_identifierText]
  refine List.splitOn_intercalate _ ?_ (List.cons_ne_nil _ _)
  intro piece hpiece
  obtain ⟨source, -, rfl⟩ := List.mem_map.mp hpiece
  exact newline_not_mem_singleLine source

theorem identifierText_inj {operation operation' : String} {fragments fragments' : List String} :
    identifierText operation fragments = identifierText operation' fragments' ↔
      (operation :: fragments).map singleLine = (operation' :: fragments').map singleLine := by
  have hforget : ∀ sources : List String,
      (sources.map fun source => (singleLine source).toList) =
        (sources.map singleLine).map String.toList := by simp
  constructor
  · intro h
    have hlines := congrArg (fun text => text.toList.splitOn '\n') h
    simp only [splitOn_identifierText, hforget] at hlines
    exact List.map_injective_iff.mpr (fun _ _ => String.toList_inj.mp) hlines
  · intro h
    rw [← String.toList_inj, toList_identifierText, toList_identifierText, hforget, hforget, h]

namespace OperationIdentifier

/-- The bytes that are digested: those of the operation's one-line form, and then, each after a
line feed, those of its fragments' one-line forms. -/
def stream (operation : String) (fragments : List String) : List UInt8 :=
  utf8 (singleLine operation) ++
    fragments.flatMap fun source => utf8 "\n" ++ utf8 (singleLine source)

theorem stream_cons (operation first : String) (rest : List String) :
    stream operation (first :: rest) =
      utf8 (singleLine operation) ++ (utf8 "\n" ++ stream first rest) := by
  simp [stream]

/-- The pieces are digested as the one text that they make up. -/
theorem stream_eq (operation : String) (fragments : List String) :
    stream operation fragments = utf8 (identifierText operation fragments) := by
  induction fragments generalizing operation with
  | nil => simp [stream, identifierText, String.join_nil]
  | cons first rest ih => rw [stream_cons, ih, identifierText_cons, utf8_append, utf8_append]

theorem ofSources_eq (operation : String) (fragments : List String) :
    ofSources operation fragments = ⟨Sha256.digest (stream operation fragments)⟩ := by
  rw [stream_eq]
  rfl

/-- The stream can be taken apart: it is the one-line forms that were put in, in their order. -/
theorem stream_inj {operation operation' : String} {fragments fragments' : List String} :
    stream operation fragments = stream operation' fragments' ↔
      singleLine operation = singleLine operation' ∧
        fragments.map singleLine = fragments'.map singleLine := by
  rw [stream_eq, stream_eq, utf8_inj, identifierText_inj, List.map_cons, List.map_cons,
    List.cons_eq_cons]

end OperationIdentifier

/-! ## Identifiers -/

/-- The stream that is digested is unambiguous: two streams are the same exactly where the
operations have the same one-line form and so have the fragments, as many and in the same order.
Where the digest tells the two streams apart, the same holds for the identifiers. -/
theorem identifiers_are_unambiguous (operation operation' : String)
    (fragments fragments' : List String) :
    (OperationIdentifier.stream operation fragments =
        OperationIdentifier.stream operation' fragments' ↔
      singleLine operation = singleLine operation' ∧
        fragments.map singleLine = fragments'.map singleLine) ∧
    ((Sha256.digest (OperationIdentifier.stream operation fragments) =
          Sha256.digest (OperationIdentifier.stream operation' fragments') →
        OperationIdentifier.stream operation fragments =
          OperationIdentifier.stream operation' fragments') →
      (OperationIdentifier.ofSources operation fragments =
          OperationIdentifier.ofSources operation' fragments' ↔
        singleLine operation = singleLine operation' ∧
          fragments.map singleLine = fragments'.map singleLine)) := by
  refine ⟨OperationIdentifier.stream_inj, fun hcollision => ?_⟩
  rw [← OperationIdentifier.stream_inj, OperationIdentifier.ofSources_eq,
    OperationIdentifier.ofSources_eq, OperationIdentifier.mk.injEq]
  exact ⟨hcollision, congrArg Sha256.digest⟩

/-- A text that moves from the operation to a fragment changes the identifier. -/
theorem moving_a_fragment_is_noticed :
    OperationIdentifier.ofSources "{ a }\nfragment F on T { b }" [] ≠
      OperationIdentifier.ofSources "{ a }" ["fragment F on T { b }"] := by
  have happart : Sha256.digest (OperationIdentifier.stream "{ a }\nfragment F on T { b }" []) ≠
      Sha256.digest (OperationIdentifier.stream "{ a }" ["fragment F on T { b }"]) := by
    decide +kernel
  have h := (identifiers_are_unambiguous "{ a }\nfragment F on T { b }" "{ a }" []
    ["fragment F on T { b }"]).2 (fun heq => absurd heq happart)
  exact fun heq => by simpa using (h.mp heq).2

end SelectionGraph
