import RhoFrontend.Proofs.Spelling
import RhoFrontend.Token.Stream

/-!
From the pieces of a text to its significant tokens: which pieces pass, and what a token tells about
the text that it was cut from.
-/

namespace RhoFrontend

namespace Piece

/-- A piece that is read as a token is spelled as that token. -/
theorem spelled_of_mem {text : List Char} {piece : Piece} {token : Token}
    (member : piece ∈ ofText text) (isToken : piece.lexeme = .token token) :
    token.Spelled piece.text := by
  fun_induction ofText text with
  | case1 => cases member
  | case2 first rest found induction =>
      rcases List.mem_cons.1 member with rfl | later
      · have next : Lexeme.next first rest = ⟨.token token, found.further⟩ := by
          rw [← isToken]
        obtain ⟨body, after, rfl, length, spelled, -⟩ := Lexeme.spelled_of_next next
        rw [length, List.take_left]
        exact spelled
      · exact induction later

theorem mem_of_with_spans {offset : Nat} {pieces : List Piece} {piece : Piece} {span : Span}
    (member : (piece, span) ∈ withSpans offset pieces) : piece ∈ pieces := by
  induction pieces generalizing offset with
  | nil => cases member
  | cons first rest induction =>
      rcases List.mem_cons.1 member with same | later
      · cases same
        exact List.mem_cons_self
      · exact List.mem_cons_of_mem first (induction later)

end Piece

namespace SpannedToken

/-- A first piece that passes is a token, which comes first, or trivia, which leaves no trace. -/
theorem of_pieces_cons {options : Options} {piece : Piece} {span : Span}
    {rest : List (Piece × Span)} {spanned : List SpannedToken}
    (read : ofPieces options ((piece, span) :: rest) = .ok spanned) :
    (∃ token others, piece.lexeme = .token token ∧ ofPieces options rest = .ok others ∧
        spanned = ⟨token, span⟩ :: others) ∨
      (∃ kind, piece.lexeme = .trivia kind) ∧ ofPieces options rest = .ok spanned := by
  obtain ⟨lexeme, text⟩ := piece
  simp only [ofPieces, Piece.significant] at read
  cases lexeme with
  | token token =>
      cases others : ofPieces options rest with
      | error error =>
          rw [others] at read
          cases read
      | ok tokens =>
          rw [others] at read
          cases read
          exact .inl ⟨token, tokens, rfl, rfl, rfl⟩
  | malformed cause => cases read
  | trivia kind =>
      by_cases rejected : (options.strictLineComments &&
          Piece.lacksNewline ⟨.trivia kind, text⟩) = true
      · simp only [rejected, if_true] at read
        cases read
      · simp only [rejected] at read
        exact .inr ⟨⟨kind, rfl⟩, read⟩

theorem exists_piece {options : Options} {pieces : List (Piece × Span)}
    {spanned : List SpannedToken} (read : ofPieces options pieces = .ok spanned)
    {each : SpannedToken} (member : each ∈ spanned) :
    ∃ piece, (piece, each.span) ∈ pieces ∧ piece.lexeme = .token each.token := by
  induction pieces generalizing spanned with
  | nil =>
      cases read
      cases member
  | cons first rest induction =>
      obtain ⟨piece, span⟩ := first
      rcases of_pieces_cons read with ⟨token, others, isToken, readOthers, rfl⟩ | ⟨-, readOthers⟩
      · rcases List.mem_cons.1 member with rfl | later
        · exact ⟨piece, List.mem_cons_self, isToken⟩
        · obtain ⟨found, inside, same⟩ := induction readOthers later
          exact ⟨found, List.mem_cons_of_mem _ inside, same⟩
      · obtain ⟨found, inside, same⟩ := induction readOthers member
        exact ⟨found, List.mem_cons_of_mem _ inside, same⟩

/-- The tokens of a source are spelled in it. -/
theorem exists_spelled {options : Options} {source : List Char} {spanned : List SpannedToken}
    (lexed : ofSource options source = .ok spanned) {each : SpannedToken}
    (member : each ∈ spanned) : ∃ text, each.token.Spelled text := by
  obtain ⟨piece, inside, isToken⟩ := exists_piece lexed member
  exact ⟨piece.text, Piece.spelled_of_mem (Piece.mem_of_with_spans inside) isToken⟩

end SpannedToken

end RhoFrontend
