import RhoFrontend.Proofs.Reprinting
import RhoFrontend.Proofs.SourceTiling

/-!
What it changes to ask for a newline behind every line comment. Only the last piece of a source can
be a line comment without one. So the two ways of reading differ in nothing but the sources that end
in such a comment, an error before it stays the error, and a newline behind the source is all that
it takes to have the stricter reading accept what the other one accepts.
-/

namespace RhoFrontend

/-- Every line comment has to end with a newline. -/
def Options.strict : Options := ⟨true⟩

/-- The last piece of the source is a line comment without a newline, and this is its span. -/
def EndsInOpenComment (source : String) (span : Span) : Prop :=
  ∃ text, (Piece.ofSource source.toList).getLast? = some (⟨.trivia .lineComment, text⟩, span) ∧
    '\n' ∉ text

/-- The error for a line comment that should have ended with a newline. -/
def LexicalError.openComment (source : String) (span : Span) : LexicalError :=
  ⟨.missingNewline, span, span.textIn source⟩

namespace Piece

theorem complete_before_last {text : List Char} {pieces : List Piece}
    (cut : CutByLongestMatch text pieces) :
    ∀ piece ∈ pieces.dropLast, piece.lacksNewline = false := by
  induction cut with
  | finished => exact fun piece none => by cases none
  | @piece first rest pieces longest others induction =>
      cases pieces with
      | nil => exact fun piece none => by cases none
      | cons second later =>
          rw [List.dropLast_cons_of_ne_nil (List.cons_ne_nil second later)]
          intro piece member
          rcases List.mem_cons.1 member with rfl | later
          · apply Bool.eq_false_iff.2
            intro lacks
            obtain ⟨-, rfl⟩ := longest.rest_of_lacks_newline lacks
            cases others.unique .finished
          · exact induction piece later

theorem lacks_newline_iff {piece : Piece} (alone : LongestMatch piece.text piece) :
    piece.lacksNewline = true ↔ piece.lexeme = .trivia .lineComment ∧ '\n' ∉ piece.text := by
  rw [← List.append_nil piece.text] at alone
  constructor
  · intro lacks
    obtain ⟨⟨body, inLine, shape⟩, -⟩ := alone.rest_of_lacks_newline lacks
    refine ⟨comment_of_lacks_newline lacks, ?_⟩
    rw [shape]
    simpa using inLine
  · rintro ⟨isComment, absent⟩
    rw [lacksNewline, Bool.and_eq_true, beq_iff_eq, bne_iff_ne]
    refine ⟨isComment, ?_⟩
    intro last
    exact absent (List.mem_of_getLast? last)

end Piece

namespace SpannedToken

theorem of_pieces_append (options : Options) (first rest : List (Piece × Span)) :
    ofPieces options (first ++ rest) = (ofPieces options first).bind fun spanned =>
      (ofPieces options rest).map (spanned ++ ·) := by
  induction first with
  | nil =>
      rw [List.nil_append]
      cases ofPieces options rest <;> rfl
  | cons each first induction =>
      obtain ⟨piece, span⟩ := each
      simp only [List.cons_append, ofPieces, induction]
      cases piece.significant options span with
      | error error => rfl
      | ok significant =>
          cases significant with
          | none => rfl
          | some token =>
              cases ofPieces options first with
              | error error => rfl
              | ok spanned =>
                  cases ofPieces options rest <;> rfl

theorem significant_strict {piece : Piece} (complete : piece.lacksNewline = false) (span : Span) :
    piece.significant .strict span = piece.significant {} span := by
  simp only [Piece.significant, complete, Bool.and_false]

theorem of_pieces_strict {pieces : List (Piece × Span)}
    (complete : ∀ each ∈ pieces, each.1.lacksNewline = false) :
    ofPieces .strict pieces = ofPieces {} pieces := by
  induction pieces with
  | nil => rfl
  | cons each rest induction =>
      obtain ⟨head, others⟩ := List.forall_mem_cons.1 complete
      simp only [ofPieces, significant_strict head, induction others]

/-- Up to the last piece the two readings agree. -/
theorem of_source_init (options : Options) {source : String} {last : Piece × Span}
    (isLast : (Piece.ofSource source.toList).getLast? = some last) :
    ofSource options source.toList =
      (ofPieces {} (Piece.ofSource source.toList).dropLast).bind fun spanned =>
        (ofPieces options [last]).map (spanned ++ ·) := by
  have split := List.dropLast_append_getLast? last isLast
  have complete : ∀ each ∈ (Piece.ofSource source.toList).dropLast,
      each.1.lacksNewline = false := by
    intro each member
    apply Piece.complete_before_last (cut_by_longest_match_of_text source.toList)
    rw [← Piece.map_with_spans 0 (Piece.ofText source.toList), ← List.map_dropLast]
    exact List.mem_map_of_mem member
  have agree : ofPieces options (Piece.ofSource source.toList).dropLast =
      ofPieces {} (Piece.ofSource source.toList).dropLast := by
    obtain ⟨_ | _⟩ := options
    · rfl
    · exact of_pieces_strict complete
  rw [← agree, ← of_pieces_append, split]
  rfl

end SpannedToken

theorem open_comment_iff {source : String} {span : Span} : EndsInOpenComment source span ↔
    ∃ piece, (Piece.ofSource source.toList).getLast? = some (piece, span) ∧
      piece.lacksNewline = true := by
  have known {piece : Piece} (last : (Piece.ofSource source.toList).getLast? =
      some (piece, span)) : piece.lacksNewline = true ↔
        piece.lexeme = .trivia .lineComment ∧ '\n' ∉ piece.text :=
    Piece.lacks_newline_iff (Piece.placed_in_source (List.mem_of_getLast? last)).2.2
  constructor
  · rintro ⟨text, last, absent⟩
    exact ⟨_, last, (known last).2 ⟨rfl, absent⟩⟩
  · rintro ⟨⟨lexeme, text⟩, last, lacks⟩
    obtain ⟨rfl, absent⟩ := (known last).1 lacks
    exact ⟨text, last, absent⟩

theorem derivations_of_lexical_error {options : Options} {source : String} {error : LexicalError}
    (failed : SpannedToken.ofSource options source.toList = .error error) :
    ProcessTree.derivations options source = .error (.lexical error) := by
  rw [ProcessTree.derivations, failed]

section Strict

variable {source : String}

theorem stop_of_open_comment {span : Span} (endsOpen : EndsInOpenComment source span) :
    span.stop = source.utf8ByteSize := by
  obtain ⟨text, last, -⟩ := endsOpen
  apply (Piece.tiles_source source).stop_of_last
  rw [List.getLast?_map, last]
  rfl

/-- An open comment passes by default and is an error otherwise, so what comes before it decides by
default, and is asked first otherwise. -/
theorem lex_open_comment {span : Span} (endsOpen : EndsInOpenComment source span) :
    SpannedToken.ofSource .strict source.toList =
      (SpannedToken.ofSource {} source.toList).bind fun _ => .error (.openComment source span) := by
  obtain ⟨piece, last, lacks⟩ := open_comment_iff.1 endsOpen
  have text := (Piece.placed_in_source (List.mem_of_getLast? last)).2.1
  obtain ⟨lexeme, letters⟩ := piece
  have isComment : lexeme = .trivia .lineComment := Piece.comment_of_lacks_newline lacks
  subst isComment
  rw [SpannedToken.of_source_init _ last, SpannedToken.of_source_init _ last]
  cases SpannedToken.ofPieces {} (Piece.ofSource source.toList).dropLast with
  | error error => rfl
  | ok others =>
      simp only [SpannedToken.ofPieces, Piece.significant, lacks, LexicalError.openComment, text]
      rfl

theorem lex_strict_of_open {spanned : List SpannedToken} {span : Span}
    (lexed : SpannedToken.ofSource {} source.toList = .ok spanned)
    (endsOpen : EndsInOpenComment source span) :
    SpannedToken.ofSource .strict source.toList = .error (.openComment source span) := by
  rw [lex_open_comment endsOpen, lexed]
  rfl

theorem lex_strict_of_closed (closed : ¬ ∃ span, EndsInOpenComment source span) :
    SpannedToken.ofSource .strict source.toList = SpannedToken.ofSource {} source.toList := by
  cases last : (Piece.ofSource source.toList).getLast? with
  | none =>
      have empty := List.getLast?_eq_none_iff.1 last
      unfold Piece.ofSource at empty
      rw [SpannedToken.ofSource, SpannedToken.ofSource, empty]
      rfl
  | some each =>
      obtain ⟨piece, span⟩ := each
      have complete : piece.lacksNewline = false := by
        apply Bool.eq_false_iff.2
        intro lacks
        exact closed ⟨span, open_comment_iff.2 ⟨piece, last, lacks⟩⟩
      rw [SpannedToken.of_source_init _ last, SpannedToken.of_source_init _ last]
      simp only [SpannedToken.ofPieces, SpannedToken.significant_strict complete]

/-- Any error comes before the open comment, so both readings stop at it. -/
theorem lex_strict_of_agreement
    (agree : ¬ ∃ spanned span, SpannedToken.ofSource {} source.toList = .ok spanned ∧
      EndsInOpenComment source span) :
    SpannedToken.ofSource .strict source.toList = SpannedToken.ofSource {} source.toList := by
  by_cases closed : ∃ span, EndsInOpenComment source span
  · obtain ⟨span, endsOpen⟩ := closed
    rw [lex_open_comment endsOpen]
    cases lexed : SpannedToken.ofSource {} source.toList with
    | error error => rfl
    | ok spanned => exact absurd ⟨spanned, span, lexed, endsOpen⟩ agree
  · exact lex_strict_of_closed closed

theorem parse_strict_iff (tree : ProcessTree) : ProcessTree.parse .strict source = .ok tree ↔
    ProcessTree.parse {} source = .ok tree ∧ ¬ ∃ span, EndsInOpenComment source span := by
  by_cases closed : ∃ span, EndsInOpenComment source span
  · obtain ⟨span, endsOpen⟩ := closed
    constructor
    · intro accepted
      obtain ⟨spanned, lexed, -⟩ := exists_derivation_of_parse accepted
      rw [lex_open_comment endsOpen] at lexed
      cases earlier : SpannedToken.ofSource {} source.toList <;> rw [earlier] at lexed <;>
        cases lexed
    · rintro ⟨-, closed⟩
      exact absurd ⟨span, endsOpen⟩ closed
  · rw [ProcessTree.parse, ProcessTree.derivations, lex_strict_of_closed closed]
    exact (and_iff_left closed).symm

theorem derivations_strict_of_open {error : SyntaxError} {span : Span}
    (failed : ProcessTree.derivations {} source = .error (.syntactic error))
    (endsOpen : EndsInOpenComment source span) :
    ProcessTree.derivations .strict source = .error (.lexical (.openComment source span)) := by
  apply derivations_of_lexical_error
  cases lexed : SpannedToken.ofSource {} source.toList with
  | error other =>
      rw [derivations_of_lexical_error lexed] at failed
      cases failed
  | ok spanned => exact lex_strict_of_open lexed endsOpen

/-- A newline behind the source ends the comment and changes no token. -/
theorem lex_before_newline {spanned : List SpannedToken}
    (lexed : SpannedToken.ofSource {} source.toList = .ok spanned) (options : Options) :
    SpannedToken.ofSource options (source ++ "\n").toList = .ok spanned := by
  have layout : Layout 0 source.toList spanned := layout_of_text_at lexed
  have read := layout.read_before_newline options []
  rw [SpannedToken.of_text_at_nil, Except.map, List.append_nil] at read
  rw [String.toList_append, SpannedToken.ofSource]
  exact read

theorem parse_strict_before_newline {tree : ProcessTree}
    (accepted : ProcessTree.parse {} source = .ok tree) :
    ProcessTree.parse .strict (source ++ "\n") = .ok tree := by
  obtain ⟨spanned, lexed, derived, -⟩ := exists_derivation_of_parse accepted
  rw [parse_ok_iff_derivations, derivations_ok_iff (lex_before_newline lexed .strict)]
  exact ⟨tree, rfl, derived⟩

end Strict

/-- The stricter reading gives what the other one gives, tokens or error, unless the other one gives
tokens and the source ends in an open line comment. Then it gives the error that stands there. -/
theorem strict_reading_only_rejects (source : String) :
    (∀ (spanned : List SpannedToken) (span : Span),
        SpannedToken.ofSource {} source.toList = .ok spanned → EndsInOpenComment source span →
          SpannedToken.ofSource .strict source.toList = .error (.openComment source span) ∧
            span.stop = source.utf8ByteSize) ∧
      ((¬ ∃ spanned span, SpannedToken.ofSource {} source.toList = .ok spanned ∧
          EndsInOpenComment source span) →
        SpannedToken.ofSource .strict source.toList = SpannedToken.ofSource {} source.toList) ∧
      (∀ tree : ProcessTree, ProcessTree.parse .strict source = .ok tree ↔
        ProcessTree.parse {} source = .ok tree ∧ ¬ ∃ span, EndsInOpenComment source span) ∧
      (∀ (error : SyntaxError) (span : Span),
        ProcessTree.derivations {} source = .error (.syntactic error) →
          EndsInOpenComment source span →
            ProcessTree.derivations .strict source =
              .error (.lexical (.openComment source span))) ∧
      ∀ tree : ProcessTree, ProcessTree.parse {} source = .ok tree →
        ProcessTree.parse .strict (source ++ "\n") = .ok tree := by
  refine ⟨?_, lex_strict_of_agreement, parse_strict_iff, ?_, ?_⟩
  · intro spanned span lexed endsOpen
    exact ⟨lex_strict_of_open lexed endsOpen, stop_of_open_comment endsOpen⟩
  · intro error span failed endsOpen
    exact derivations_strict_of_open failed endsOpen
  · intro tree accepted
    exact parse_strict_before_newline accepted

/-- The comment would hide the missing operand, and a newline brings the syntax error back. -/
theorem strict_reading_only_rejects_behind_bar :
    SpannedToken.ofSource {} "Nil | //é".toList =
        .ok [⟨.keyword .nil, ⟨0, 3⟩⟩, ⟨.punctuation .pipe, ⟨4, 5⟩⟩] ∧
      EndsInOpenComment "Nil | //é" ⟨6, 10⟩ ∧
      ProcessTree.derivations {} "Nil | //é" = .error (.syntactic ⟨⟨10, 11⟩,
        ["`@`", "`Nil`", "`bundle`", "`for`", "`lookup`", "`new`"], none⟩) ∧
      ProcessTree.derivations .strict "Nil | //é" =
        .error (.lexical (.openComment "Nil | //é" ⟨6, 10⟩)) ∧
      ProcessTree.parse {} "Nil//" = .ok .nil ∧
      ProcessTree.parse .strict "Nil//\n" = .ok .nil := by
  have lexed : SpannedToken.ofSource {} "Nil | //é".toList =
      .ok [⟨.keyword .nil, ⟨0, 3⟩⟩, ⟨.punctuation .pipe, ⟨4, 5⟩⟩] := by cbv
  have endsOpen : EndsInOpenComment "Nil | //é" ⟨6, 10⟩ := by
    have last : (Piece.ofSource "Nil | //é".toList).getLast? =
        some (⟨.trivia .lineComment, ['/', '/', 'é']⟩, ⟨6, 10⟩) := by cbv
    exact ⟨_, last, by decide⟩
  have failed : ProcessTree.derivations {} "Nil | //é" = .error (.syntactic ⟨⟨10, 11⟩,
      ["`@`", "`Nil`", "`bundle`", "`for`", "`lookup`", "`new`"], none⟩) := by cbv
  have accepted : ProcessTree.parse {} "Nil//" = .ok .nil := by cbv
  have replaced := (strict_reading_only_rejects "Nil | //é").2.2.2.1 _ _ failed endsOpen
  have repaired := (strict_reading_only_rejects "Nil//").2.2.2.2 _ accepted
  exact ⟨lexed, endsOpen, failed, replaced, accepted, repaired⟩

end RhoFrontend
