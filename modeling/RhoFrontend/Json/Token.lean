import RhoFrontend.Json.Basic
import RhoFrontend.Json.NumberLiteral
import RhoFrontend.Json.StringLiteral

/-!
JSON text as tokens: the tokens of a document, the spelling of a token, and the tokens of a text.
-/

namespace RhoFrontend.Json

inductive Token
  | openBracket
  | closeBracket
  | openBrace
  | closeBrace
  | comma
  | colon
  | null
  | bool (value : Bool)
  | integer (value : Int)
  | decimal (literal : String)
  | string (content : String)
deriving DecidableEq, Repr

end RhoFrontend.Json

namespace RhoFrontend

mutual

def Json.tokens : Json → List Json.Token
  | .null => [.null]
  | .bool value => [.bool value]
  | .integer value => [.integer value]
  | .decimal literal => [.decimal literal]
  | .string value => [.string value]
  | .array [] => [.openBracket, .closeBracket]
  | .array (item :: rest) => .openBracket :: (item.tokens ++ Json.laterItems rest)
  | .object [] => [.openBrace, .closeBrace]
  | .object (⟨name, value⟩ :: rest) =>
      .openBrace :: .string name :: .colon :: (value.tokens ++ Json.laterFields rest)

def Json.laterItems : List Json → List Json.Token
  | [] => [.closeBracket]
  | item :: rest => .comma :: (item.tokens ++ Json.laterItems rest)

def Json.laterFields : List Json.Field → List Json.Token
  | [] => [.closeBrace]
  | ⟨name, value⟩ :: rest =>
      .comma :: .string name :: .colon :: (value.tokens ++ Json.laterFields rest)

end

end RhoFrontend

namespace RhoFrontend.Json.Token

def spelling : Token → List Char
  | .openBracket => ['[']
  | .closeBracket => [']']
  | .openBrace => ['{']
  | .closeBrace => ['}']
  | .comma => [',']
  | .colon => [':']
  | .null => ['n', 'u', 'l', 'l']
  | .bool true => ['t', 'r', 'u', 'e']
  | .bool false => ['f', 'a', 'l', 's', 'e']
  | .integer value => Integer.digitsOfValue value
  | .decimal literal => literal.toList
  | .string content => '"' :: (StringLiteral.encode content.toList ++ ['"'])

def isSpace (char : Char) : Bool :=
  char == ' ' || char == '\t' || char == '\n' || char == '\r'

/-- The token that a word stands for, if the text starts with the word. -/
def word? (word : List Char) (token : Token) (text : List Char) : Option (Token × Nat) :=
  if word.isPrefixOf text then some (token, word.length) else none

/-- The number that a text starts with. It ends where no number can go on. -/
def number? (text : List Char) : Option (Token × Nat) :=
  let literal := text.takeWhile NumberLiteral.isPart
  match NumberLiteral.ofText? literal with
  | none => none
  | some number =>
      if number.roundsToFinite then
        match number.integer? with
        | some value => some (.integer value, literal.length)
        | none => some (.decimal (String.ofList literal), literal.length)
      else none

/-- The token that starts with this character, and the number of its characters. -/
def next? (first : Char) (rest : List Char) : Option (Token × Nat) :=
  match first with
  | '[' => some (.openBracket, 1)
  | ']' => some (.closeBracket, 1)
  | '{' => some (.openBrace, 1)
  | '}' => some (.closeBrace, 1)
  | ',' => some (.comma, 1)
  | ':' => some (.colon, 1)
  | 'n' => word? (spelling .null) .null (first :: rest)
  | 't' => word? (spelling (.bool true)) (.bool true) (first :: rest)
  | 'f' => word? (spelling (.bool false)) (.bool false) (first :: rest)
  | '"' =>
      (StringLiteral.decode rest).map fun (content, length) =>
        (.string (String.ofList content), length + 1)
  | _ => number? (first :: rest)

/-- The tokens of a text, if it is made of tokens and space only. -/
def ofText? : List Char → Option (List Token)
  | [] => some []
  | first :: rest =>
      if isSpace first then ofText? rest
      else
        match next? first rest with
        | none => none
        | some (token, length) => (ofText? (rest.drop (length - 1))).map (token :: ·)
termination_by text => text.length
decreasing_by
  all_goals
    simp only [List.length_drop, List.length_cons]
    omega

end RhoFrontend.Json.Token
