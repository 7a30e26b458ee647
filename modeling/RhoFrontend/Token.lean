import RhoFrontend.Text.Integer

/-!
Tokens of rho source text and the words that describe them in messages.
-/

namespace RhoFrontend

inductive Keyword
  | nil
  | trueValue
  | falseValue
  | receive
  | new
  | within
  | lookup
  | bundle
deriving DecidableEq, Repr

namespace Keyword

def all : List Keyword :=
  [.nil, .trueValue, .falseValue, .receive, .new, .within, .lookup, .bundle]

def spelling : Keyword → String
  | .nil => "Nil"
  | .trueValue => "true"
  | .falseValue => "false"
  | .receive => "for"
  | .new => "new"
  | .within => "in"
  | .lookup => "lookup"
  | .bundle => "bundle"

def ofSpelling? (word : String) : Option Keyword :=
  all.find? fun keyword => keyword.spelling == word

end Keyword

inductive Punctuation
  | atSign
  | bang
  | openParen
  | closeParen
  | openBrace
  | closeBrace
  | leftArrow
  | semicolon
  | comma
  | pipe
deriving DecidableEq, Repr

namespace Punctuation

def spelling : Punctuation → String
  | .atSign => "@"
  | .bang => "!"
  | .openParen => "("
  | .closeParen => ")"
  | .openBrace => "\x7b"
  | .closeBrace => "\x7d"
  | .leftArrow => "<-"
  | .semicolon => ";"
  | .comma => ","
  | .pipe => "|"

/-- The punctuation that is one character long. The arrow is the only longer one. -/
def ofChar? : Char → Option Punctuation
  | '@' => some .atSign
  | '!' => some .bang
  | '(' => some .openParen
  | ')' => some .closeParen
  | '{' => some .openBrace
  | '}' => some .closeBrace
  | ';' => some .semicolon
  | ',' => some .comma
  | '|' => some .pipe
  | _ => none

end Punctuation

/-- A token that means something to the grammar. Literals hold what they denote: strings and
uris are kept without their delimiters. -/
inductive Token
  | keyword (word : Keyword)
  | punctuation (mark : Punctuation)
  | integer (value : Int64)
  | string (content : String)
  | uri (content : String)
  | identifier (name : String)
deriving DecidableEq, Repr

namespace Token

def spelling : Token → List Char
  | .keyword word => word.spelling.toList
  | .punctuation mark => mark.spelling.toList
  | .integer value => Integer.spelling value
  | .string content => '"' :: (content.toList ++ ['"'])
  | .uri content => '\x60' :: (content.toList ++ ['\x60'])
  | .identifier name => name.toList

def describe : Token → String
  | .keyword word => "`" ++ word.spelling ++ "`"
  | .punctuation mark => "`" ++ mark.spelling ++ "`"
  | .integer value => "integer " ++ String.ofList (Integer.spelling value)
  | .string content => "string \"" ++ content ++ "\""
  | .uri content => "uri `" ++ content ++ "`"
  | .identifier name => "identifier `" ++ name ++ "`"

end Token

end RhoFrontend
