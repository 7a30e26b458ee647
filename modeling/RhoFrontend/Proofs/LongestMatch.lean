import RhoFrontend.Proofs.Lexing.Matches

/-!
A text is cut into pieces by longest match and in no other way: no other piece is a longest match at
the same place, so the rules leave the reader no choice.
-/

namespace RhoFrontend

namespace Rule

theorem keyword_of_spelling {word other : Keyword}
    (same : word.spelling.toList = other.spelling.toList) : word = other := by
  have spelled := String.toList_inj.1 same
  have found := Lexeme.of_spelling_eq_some_iff.2 spelled
  rw [Lexeme.of_spelling_eq_some_iff.2 rfl] at found
  exact (Option.some.inj found).symm

theorem arrow_or_single (mark : Punctuation) :
    mark = .leftArrow ∨ ∃ char, mark.spelling.toList = [char] := by
  cases mark <;> first | exact .inl rfl | exact .inr ⟨_, rfl⟩

theorem mark_of_spelling {mark other : Punctuation}
    (same : mark.spelling.toList = other.spelling.toList) : mark = other := by
  have ofSingle {mark other : Punctuation} {char : Char} (spelled : mark.spelling.toList = [char])
      (same : mark.spelling.toList = other.spelling.toList) : mark = other := by
    have found := Lexeme.of_char_eq_some_iff.2 spelled
    have otherFound := Lexeme.of_char_eq_some_iff.2 (same.symm.trans spelled)
    exact Option.some.inj (found.symm.trans otherFound)
  rcases arrow_or_single mark with rfl | ⟨char, spelled⟩
  · rcases arrow_or_single other with rfl | ⟨char, spelled⟩
    · rfl
    · exact (ofSingle spelled same.symm).symm
  · exact ofSingle spelled same

/-- Sign and digits of an integer can be told apart, because a sign is no digit. -/
theorem sign_of_append {negative otherNegative : Bool}
    {sign otherSign digits otherDigits : List Char}
    (signed : Token.Sign negative sign) (otherSigned : Token.Sign otherNegative otherSign)
    (all : ∀ char ∈ digits, char.isDigit = true)
    (otherAll : ∀ char ∈ otherDigits, char.isDigit = true)
    (same : sign ++ digits = otherSign ++ otherDigits) :
    negative = otherNegative ∧ digits = otherDigits := by
  cases signed with
  | absent =>
      cases otherSigned with
      | absent => exact ⟨rfl, same⟩
      | plus | minus =>
          cases same
          cases all _ List.mem_cons_self
  | plus =>
      cases otherSigned with
      | absent =>
          cases same
          cases otherAll _ List.mem_cons_self
      | plus => exact ⟨rfl, List.tail_eq_of_cons_eq same⟩
      | minus => cases same
  | minus =>
      cases otherSigned with
      | absent =>
          cases same
          cases otherAll _ List.mem_cons_self
      | plus => cases same
      | minus => exact ⟨rfl, List.tail_eq_of_cons_eq same⟩

theorem lexeme_unique {rule other : Rule} {text otherText : List Char} {lexeme otherLexeme : Lexeme}
    (reads : rule.Reads text lexeme) (otherReads : other.Reads otherText otherLexeme)
    (same : text = otherText) (family : rule.family = other.family)
    (priority : rule = .identifier → ∀ word : Keyword, word.spelling.toList ≠ text)
    (otherPriority : other = .identifier → ∀ word : Keyword, word.spelling.toList ≠ otherText) :
    lexeme = otherLexeme := by
  cases reads with
  | whitespace =>
      cases otherReads with
      | whitespace => rfl
      | _ => cases family
  | lineComment =>
      cases otherReads with
      | lineComment => rfl
      | blockComment => cases (List.cons.inj (List.cons.inj same).2).1
      | _ => cases family
  | blockComment =>
      cases otherReads with
      | blockComment => rfl
      | lineComment => cases (List.cons.inj (List.cons.inj same).2).1
      | _ => cases family
  | keyword word =>
      cases otherReads with
      | keyword otherWord => rw [keyword_of_spelling same]
      | identifier => exact absurd same (otherPriority rfl word)
      | _ => cases family
  | punctuation mark =>
      cases otherReads with
      | punctuation otherMark => rw [mark_of_spelling same]
      | _ => cases family
  | integer signed nonempty all fits =>
      cases otherReads with
      | integer otherSigned _ otherAll otherFits =>
          obtain ⟨rfl, rfl⟩ := sign_of_append signed otherSigned all otherAll same
          rw [Int64.toInt_inj.1 (fits.trans otherFits.symm)]
      | integerRange otherSigned _ otherAll beyond =>
          obtain ⟨rfl, rfl⟩ := sign_of_append signed otherSigned all otherAll same
          exact absurd fits (beyond _)
      | _ => cases family
  | integerRange signed nonempty all beyond =>
      cases otherReads with
      | integer otherSigned _ otherAll otherFits =>
          obtain ⟨rfl, rfl⟩ := sign_of_append signed otherSigned all otherAll same
          exact absurd otherFits (beyond _)
      | integerRange => rfl
      | _ => cases family
  | string =>
      cases otherReads with
      | string => rw [List.append_cancel_right (List.cons.inj same).2]
      | _ => cases family
  | uri =>
      cases otherReads with
      | uri => rw [List.append_cancel_right (List.cons.inj same).2]
      | _ => cases family
  | identifier =>
      cases otherReads with
      | identifier => rw [same]
      | keyword word => exact absurd same.symm (priority rfl word)
      | _ => cases family

end Rule

theorem OpensComment.not_literal {text : List Char} (comment : OpensComment text) :
    ¬ OpensLiteral text := by
  obtain ⟨rest, rfl⟩ := comment
  rintro (opens | opens)
  · cases (List.cons_prefix_cons.1 opens).1
  · cases (List.cons_prefix_cons.1 opens).1

theorem LongestMatch.unique {text : List Char} {piece other : Piece}
    (first : LongestMatch text piece) (second : LongestMatch text other) : piece = other := by
  cases first with
  | @matched rule _ reads start longest priority =>
      cases second with
      | @matched otherRule _ otherReads otherStart otherLongest otherPriority =>
          have length : piece.text.length = other.text.length :=
            Nat.le_antisymm (otherLongest _ _ _ reads start) (longest _ _ _ otherReads otherStart)
          have sameText : piece.text = other.text :=
            (List.prefix_of_prefix_length_le start otherStart (Nat.le_of_eq length)).eq_of_length
              length
          have family : rule.family = otherRule.family := by
            obtain ⟨head, body, shape⟩ :=
              List.exists_cons_of_ne_nil (Rule.nonempty_of_reads reads)
            rw [← sameText] at otherReads
            rw [shape] at reads otherReads
            have known := Rule.family_of_reads reads
            rw [Rule.family_of_reads otherReads] at known
            exact (Option.some.inj known).symm
          have sameLexeme : piece.lexeme = other.lexeme :=
            Rule.lexeme_unique reads otherReads sameText family priority otherPriority
          cases piece
          cases other
          cases sameText
          cases sameLexeme
          rfl
      | openComment unmatched | openLiteral unmatched | stray _ unmatched =>
          exact absurd start (unmatched _ _ _ reads)
  | openComment unmatched opens =>
      cases second with
      | matched otherReads otherStart => exact absurd otherStart (unmatched _ _ _ otherReads)
      | openComment => rfl
      | openLiteral _ otherOpens => exact absurd otherOpens opens.not_literal
      | stray _ _ noComment => exact absurd opens noComment
  | openLiteral unmatched opens =>
      cases second with
      | matched otherReads otherStart => exact absurd otherStart (unmatched _ _ _ otherReads)
      | openComment _ otherOpens => exact absurd opens otherOpens.not_literal
      | openLiteral => rfl
      | stray _ _ _ noLiteral => exact absurd opens noLiteral
  | stray same unmatched noComment noLiteral =>
      cases second with
      | matched otherReads otherStart => exact absurd otherStart (unmatched _ _ _ otherReads)
      | openComment _ otherOpens => exact absurd otherOpens noComment
      | openLiteral _ otherOpens => exact absurd otherOpens noLiteral
      | stray otherSame =>
          rw [same] at otherSame
          cases otherSame
          rfl

theorem LongestMatch.nonempty {text : List Char} {piece : Piece}
    (cut : LongestMatch text piece) : piece.text ≠ [] := by
  cases cut with
  | matched reads => exact Rule.nonempty_of_reads reads
  | openComment _ opens =>
      obtain ⟨rest, rfl⟩ := opens
      exact List.cons_ne_nil _ _
  | openLiteral _ opens =>
      rcases opens with ⟨rest, rfl⟩ | ⟨rest, rfl⟩
      · exact List.cons_ne_nil _ _
      · exact List.cons_ne_nil _ _
  | stray => exact List.cons_ne_nil _ _

theorem cut_by_longest_match_of_text (text : List Char) :
    CutByLongestMatch text (Piece.ofText text) := by
  fun_induction Piece.ofText text with
  | case1 => exact .finished
  | case2 first rest found induction =>
      let piece : Piece := ⟨found.lexeme, first :: rest.take found.further⟩
      have whole : piece.text ++ rest.drop found.further = first :: rest := by
        rw [List.cons_append, List.take_append_drop]
      have cut : LongestMatch (piece.text ++ rest.drop found.further) piece := by
        rw [whole]
        exact Lexeme.next_longest_match first rest
      rw [← whole]
      exact .piece cut induction

theorem CutByLongestMatch.unique {text : List Char} {pieces others : List Piece}
    (first : CutByLongestMatch text pieces) (second : CutByLongestMatch text others) :
    pieces = others := by
  induction first generalizing others with
  | finished =>
      generalize empty : ([] : List Char) = text at second
      cases second with
      | finished => rfl
      | piece cut =>
          have none := (List.append_eq_nil_iff.1 empty.symm).1
          exact absurd none cut.nonempty
  | @piece piece rest pieces cut _ induction =>
      generalize shape : piece.text ++ rest = text at second
      cases second with
      | finished => exact absurd (List.append_eq_nil_iff.1 shape).1 cut.nonempty
      | @piece other otherRest otherPieces otherCut otherOthers =>
          rw [shape] at cut
          have same := cut.unique otherCut
          subst same
          have sameRest := List.append_cancel_left shape
          subst sameRest
          rw [induction otherOthers]

namespace Piece

/-- The reader takes a longest match off the text and goes on behind it. -/
theorem of_text_of_longest_match {lexeme : Lexeme} {text rest : List Char}
    (longest : LongestMatch (text ++ rest) ⟨lexeme, text⟩) :
    ofText (text ++ rest) = ⟨lexeme, text⟩ :: ofText rest := by
  have others := cut_by_longest_match_of_text rest
  have cut := @CutByLongestMatch.piece ⟨lexeme, text⟩ rest _ longest others
  exact (cut_by_longest_match_of_text _).unique cut

theorem with_spans_bytes {offset : Nat} {pieces : List Piece} {piece : Piece} {span : Span}
    {text : List Char} (cut : CutByLongestMatch text pieces)
    (member : (piece, span) ∈ withSpans offset pieces) :
    ∃ before after, text = before ++ (piece.text ++ after) ∧
      LongestMatch (piece.text ++ after) piece ∧
        span = ⟨offset + byteLength before, offset + byteLength (before ++ piece.text)⟩ := by
  induction cut generalizing offset with
  | finished => cases member
  | @piece first rest pieces longest _ induction =>
      rcases List.mem_cons.1 member with same | later
      · cases same
        exact ⟨[], rest, rfl, longest, rfl⟩
      · obtain ⟨before, after, rfl, otherLongest, rfl⟩ := induction later
        refine ⟨first.text ++ before, after, by simp, otherLongest, ?_⟩
        simp [Nat.add_assoc]

end Piece

/-- The reader cuts a text by longest match, there is no other way to do so, and a piece has the
bytes of its text as its span. -/
theorem tokenization_is_longest_match (source : String) :
    (∀ pieces : List Piece,
        Piece.ofText source.toList = pieces ↔ CutByLongestMatch source.toList pieces) ∧
      ∀ (piece : Piece) (span : Span),
        (piece, span) ∈ Piece.withSpans 0 (Piece.ofText source.toList) →
          ∃ before after, source.toList = before ++ (piece.text ++ after) ∧
            LongestMatch (piece.text ++ after) piece ∧
              span = ⟨byteLength before, byteLength (before ++ piece.text)⟩ := by
  have cut := cut_by_longest_match_of_text source.toList
  constructor
  · intro pieces
    constructor
    · rintro rfl
      exact cut
    · intro other
      exact cut.unique other
  · intro piece span member
    have placed := Piece.with_spans_bytes cut member
    simpa only [Nat.zero_add] using placed

end RhoFrontend
