import RhoFrontend.Error

/-!
The tokens of a source with their spans. Trivia is dropped here, so it may stand between any two
tokens, before the first and after the last. The first malformed piece ends the reading.
-/

namespace RhoFrontend

/-- What a reader of sources may ask for. Under `strictLineComments` a line comment has to end
with a newline, even at the end of the source. -/
structure Options where
  strictLineComments : Bool := false
deriving DecidableEq, Repr

structure SpannedToken where
  token : Token
  span : Span
deriving DecidableEq, Repr

namespace Piece

/-- Only a line comment at the very end of a source can lack its newline. -/
def lacksNewline (piece : Piece) : Bool :=
  piece.lexeme == .trivia .lineComment && piece.text.getLast? != some '\n'

/-- A piece passes as a token, passes as trivia, or is an error. -/
def significant (options : Options) (piece : Piece) (span : Span) :
    Except LexicalError (Option SpannedToken) :=
  match piece.lexeme with
  | .token token => .ok (some ⟨token, span⟩)
  | .malformed cause => .error ⟨.malformed cause, span, String.ofList piece.text⟩
  | .trivia _ =>
      if options.strictLineComments && piece.lacksNewline then
        .error ⟨.missingNewline, span, String.ofList piece.text⟩
      else .ok none

end Piece

namespace SpannedToken

/-- The significant tokens among pieces, unless one of the pieces is an error. -/
def ofPieces (options : Options) : List (Piece × Span) → Except LexicalError (List SpannedToken)
  | [] => .ok []
  | (piece, span) :: rest =>
      match piece.significant options span with
      | .error error => .error error
      | .ok none => ofPieces options rest
      | .ok (some token) => (ofPieces options rest).map (token :: ·)

def ofSource (options : Options) (source : List Char) : Except LexicalError (List SpannedToken) :=
  ofPieces options (Piece.withSpans 0 (Piece.ofText source))

end SpannedToken

end RhoFrontend
