import RhoFrontend.Source.Position
import RhoFrontend.Text.Integer
import RhoFrontend.Token

/-!
Source text cut into lexemes by longest match: tokens, trivia, and the pieces that are neither.
No character is lost, so the texts of the pieces put together are the source. Keywords win over
names of the same length.
-/

namespace RhoFrontend

inductive Trivia
  | whitespace
  | lineComment
  | blockComment
deriving DecidableEq, Repr

namespace Trivia

def describe : Trivia → String
  | .whitespace => "whitespace"
  | .lineComment => "line comment"
  | .blockComment => "block comment"

end Trivia

/-- Why a piece of text is no lexeme: it starts none, or starts one that never ends; it opens a
comment that is not closed; it is an integer beyond 64 bits. -/
inductive Malformed
  | unexpected
  | unclosedComment
  | integerRange
deriving DecidableEq, Repr

namespace Malformed

/-- Digits behind a run of signs. -/
def isNumber (text : List Char) : Bool :=
  !text.isEmpty &&
    (text.dropWhile fun char => char == '+' || char == '-').all Char.isDigit &&
      text.any Char.isDigit

/-- The cause that the text of a malformed piece shows. -/
def ofText (text : List Char) : Malformed :=
  if ['/', '*'].isPrefixOf text then .unclosedComment
  else if isNumber text then .integerRange
  else .unexpected

end Malformed

inductive Lexeme
  | trivia (kind : Trivia)
  | token (token : Token)
  | malformed (cause : Malformed)
deriving DecidableEq, Repr

/-- A lexeme found at the first character of a text, and how many further characters it takes. -/
structure Lexeme.Match where
  lexeme : Lexeme
  further : Nat
deriving DecidableEq, Repr

def isBlank (char : Char) : Bool :=
  char == ' ' || char == '\t' || char == '\r' || char == '\n' || char == '\x0c'

def isNameStart (char : Char) : Bool := char.isAlpha || char == '_'

def isNamePart (char : Char) : Bool := char.isAlphanum || char == '_'

namespace Lexeme

def ofWord (word : List Char) : Token :=
  match Keyword.ofSpelling? (String.ofList word) with
  | some keyword => .keyword keyword
  | none => .identifier (String.ofList word)

def ofDigits (negative : Bool) (digits : List Char) : Lexeme :=
  match Integer.ofInt? (Integer.valueOfDigits negative digits) with
  | some value => .token (.integer value)
  | none => .malformed .integerRange

/-- Text after an opening delimiter, up to the next one. Nothing escapes the delimiter. -/
def delimited (delimiter : Char) (token : String → Token) (rest : List Char) : Match :=
  let content := rest.takeWhile (· != delimiter)
  if content.length < rest.length then
    ⟨.token (token (String.ofList content)), content.length + 1⟩
  else ⟨.malformed .unexpected, rest.length⟩

/-- Number of characters up to and including the first `*/`. -/
def commentEnd? : List Char → Option Nat
  | [] => none
  | '*' :: '/' :: _ => some 2
  | _ :: rest => (commentEnd? rest).map (· + 1)

/-- After a slash. A line comment takes the newline that ends it, if there is one. -/
def afterSlash : List Char → Match
  | '/' :: rest =>
      let body := rest.takeWhile (· != '\n')
      ⟨.trivia .lineComment, 1 + min (body.length + 1) rest.length⟩
  | '*' :: rest =>
      match commentEnd? rest with
      | some length => ⟨.trivia .blockComment, 1 + length⟩
      | none => ⟨.malformed .unclosedComment, 1 + rest.length⟩
  | _ => ⟨.malformed .unexpected, 0⟩

/-- After a sign, which alone is no token. -/
def afterSign (negative : Bool) (rest : List Char) : Match :=
  let digits := rest.takeWhile Char.isDigit
  if digits.isEmpty then ⟨.malformed .unexpected, 0⟩
  else ⟨ofDigits negative digits, digits.length⟩

/-- After an opening angle bracket, which only an arrow can start with. -/
def afterAngle : List Char → Match
  | '-' :: _ => ⟨.token (.punctuation .leftArrow), 1⟩
  | _ => ⟨.malformed .unexpected, 0⟩

def next (first : Char) (rest : List Char) : Match :=
  if isBlank first then ⟨.trivia .whitespace, (rest.takeWhile isBlank).length⟩
  else if isNameStart first then
    let word := first :: rest.takeWhile isNamePart
    ⟨.token (ofWord word), word.length - 1⟩
  else if first.isDigit then
    let digits := first :: rest.takeWhile Char.isDigit
    ⟨ofDigits false digits, digits.length - 1⟩
  else
    match first with
    | '/' => afterSlash rest
    | '+' => afterSign false rest
    | '-' => afterSign true rest
    | '<' => afterAngle rest
    | '"' => delimited '"' .string rest
    | '\x60' => delimited '\x60' .uri rest
    | _ =>
        match Punctuation.ofChar? first with
        | some mark => ⟨.token (.punctuation mark), 0⟩
        | none => ⟨.malformed .unexpected, 0⟩

end Lexeme

structure Piece where
  lexeme : Lexeme
  text : List Char
deriving DecidableEq, Repr

namespace Piece

def ofText : List Char → List Piece
  | [] => []
  | first :: rest =>
      let found := Lexeme.next first rest
      ⟨found.lexeme, first :: rest.take found.further⟩ :: ofText (rest.drop found.further)
termination_by text => text.length
decreasing_by
  simp only [List.length_drop, List.length_cons]
  omega

/-- Pieces with their spans, where the first one starts at `offset`. -/
def withSpans (offset : Nat) : List Piece → List (Piece × Span)
  | [] => []
  | piece :: rest =>
      let stop := offset + byteLength piece.text
      (piece, ⟨offset, stop⟩) :: withSpans stop rest

end Piece

end RhoFrontend
