import RhoFrontend.Source.Excerpt
import RhoFrontend.Source.Position
import RhoFrontend.Token.Lexeme

/-!
Everything that can be wrong with a source text, the message for it, and the report that shows
the message with the lines around it.
-/

namespace RhoFrontend

/-- What stops a source from being read as tokens: a malformed piece, or a line comment without the
newline that it has to end with. -/
inductive LexicalFault
  | malformed (cause : Malformed)
  | missingNewline
deriving DecidableEq, Repr

structure LexicalError where
  fault : LexicalFault
  span : Span
  text : String
deriving DecidableEq, Repr

namespace LexicalError

def message (error : LexicalError) : String :=
  let start := error.span.start
  match error.fault with
  | .malformed .unexpected => s!"Unexpected character '{error.text}' at offset {start}"
  | .malformed .unclosedComment => s!"Unterminated block comment at offset {start}"
  | .malformed .integerRange =>
      s!"Integer literal {error.text} at offset {start} is out of range"
  | .missingNewline => s!"Line comment at offset {start} must end with a newline"

end LexicalError

/-- A token, or the end of the input where `found` is absent, at which no process can go on.
`expected` describes what could have stood there. -/
structure SyntaxError where
  span : Span
  expected : List String
  found : Option String
deriving DecidableEq, Repr

namespace SyntaxError

def message (error : SyntaxError) : String :=
  let found := error.found.getD "end of input"
  let expected :=
    if error.expected.isEmpty then ""
    else ", expected one of: " ++ String.intercalate ", " error.expected
  s!"Unexpected {found} at offset {error.span.start}" ++ expected

end SyntaxError

inductive ParseError
  | lexical (error : LexicalError)
  | syntactic (error : SyntaxError)
  | ambiguous (count : Nat)
deriving DecidableEq, Repr

namespace ParseError

/-- An ambiguity concerns the whole source and has no place in it. -/
def span? : ParseError → Option Span
  | .lexical error => some error.span
  | .syntactic error => some error.span
  | .ambiguous _ => none

def message : ParseError → String
  | .lexical error => error.message
  | .syntactic error => error.message
  | .ambiguous count => s!"Ambiguous input: {count} derivations matched"

def cause? : ParseError → Option String
  | .lexical error => some error.message
  | .syntactic error => some error.message
  | .ambiguous _ => none

/-- The message under its line and column, above an excerpt of the source. -/
def render (error : ParseError) (source : List Char) : String :=
  match error.span? with
  | some span =>
      let start := (LineTable.ofSource source).position span.start
      s!"Error at {start.describe}: {error.message}\n\n" ++
        String.ofList (excerpt source start.line)
  | none => s!"Error: {error.message}"

end ParseError

end RhoFrontend
