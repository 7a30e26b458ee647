import RhoFrontend.Json.Reading
import RhoFrontend.Proofs.Spelling

/-!
Strict JSON text as a relation between documents and texts: how a string, a number and any other
token may be spelled, and which texts hold a document. Nothing here is read from left to right, and
a document has many texts: any space between tokens, any escapes, any form of a number.
-/

namespace RhoFrontend.Json

namespace StringLiteral

/-- A digit in base sixteen, in either letter case. -/
def IsHexDigit (value : Nat) (char : Char) : Prop :=
  value < 16 ∧ (char = Nat.digitChar value ∨ char = (Nat.digitChar value).toUpper)

/-- Four digits that spell a UTF-16 code unit. -/
inductive CodeUnit : Nat → List Char → Prop
  | digits {a b c d : Nat} {first second third fourth : Char} (firstDigit : IsHexDigit a first)
      (secondDigit : IsHexDigit b second) (thirdDigit : IsHexDigit c third)
      (fourthDigit : IsHexDigit d fourth) :
      CodeUnit (((a * 16 + b) * 16 + c) * 16 + d) [first, second, third, fourth]

/-- The letters that may follow a backslash, with the characters that they stand for. -/
def letterEscapes : List (Char × Char) :=
  [('"', '"'), ('\\', '\\'), ('/', '/'), ('b', '\x08'), ('f', '\x0c'), ('n', '\n'), ('r', '\r'),
    ('t', '\t')]

/-- The texts between quotes that denote a string. A character is written as itself, unless it is a
quote, a backslash or a control, by a letter, by its code, or by a pair of code units. -/
inductive Spells : List Char → List Char → Prop
  | nil : Spells [] []
  | plain {char : Char} {content text : List Char} (visible : 0x20 ≤ char.toNat)
      (notQuote : char ≠ '"') (notBackslash : char ≠ '\\') (rest : Spells content text) :
      Spells (char :: content) (char :: text)
  | letter {letter char : Char} {content text : List Char} (known : (letter, char) ∈ letterEscapes)
      (rest : Spells content text) : Spells (char :: content) ('\\' :: letter :: text)
  | unit {char : Char} {digits content text : List Char} (code : CodeUnit char.toNat digits)
      (rest : Spells content text) : Spells (char :: content) ('\\' :: 'u' :: (digits ++ text))
  | pair {char : Char} {high low : Nat} {first second content text : List Char}
      (highCode : CodeUnit high first) (lowCode : CodeUnit low second)
      (isHigh : 0xD800 ≤ high ∧ high < 0xDC00) (isLow : 0xDC00 ≤ low ∧ low < 0xE000)
      (value : char.toNat = 0x10000 + (high - 0xD800) * 0x400 + (low - 0xDC00))
      (rest : Spells content text) :
      Spells (char :: content) ('\\' :: 'u' :: (first ++ '\\' :: 'u' :: (second ++ text)))

end StringLiteral

namespace NumberLiteral

/-- The digits before the point: at least one, and a zero only alone. -/
structure IsWhole (digits : List Char) : Prop where
  nonempty : digits ≠ []
  all : ∀ char ∈ digits, char.isDigit = true
  noLeadingZero : ∀ rest, digits = '0' :: rest → rest = []

inductive FractionText : List Char → List Char → Prop
  | absent : FractionText [] []
  | present {digits : List Char} (nonempty : digits ≠ [])
      (all : ∀ char ∈ digits, char.isDigit = true) : FractionText digits ('.' :: digits)

inductive ExponentText : Option Int → List Char → Prop
  | absent : ExponentText none []
  | present {letter : Char} {negative : Bool} {sign digits : List Char}
      (marked : letter = 'e' ∨ letter = 'E') (signed : RhoFrontend.Token.Sign negative sign)
      (nonempty : digits ≠ []) (all : ∀ char ∈ digits, char.isDigit = true) :
      ExponentText (some (Integer.valueOfDigits negative digits)) (letter :: (sign ++ digits))

/-- The texts of numbers, taken apart. A plus sign may only stand in an exponent. -/
inductive Spells : NumberLiteral → List Char → Prop
  | parts {negative : Bool} {whole fraction fractionText exponentText : List Char}
      {exponent : Option Int} (isWhole : IsWhole whole)
      (hasFraction : FractionText fraction fractionText)
      (hasExponent : ExponentText exponent exponentText) :
      Spells ⟨negative, whole, fraction, exponent⟩
        ((if negative then ['-'] else []) ++ (whole ++ (fractionText ++ exponentText)))

/-- The literal is an integer: it has no fraction, no exponent, and is not a negative zero. -/
structure IsInteger (literal : NumberLiteral) (value : Int) : Prop where
  noFraction : literal.fraction = []
  noExponent : literal.exponent = none
  denotes : value = Integer.valueOfDigits literal.negative literal.whole
  notNegativeZero : literal.negative = true → value ≠ 0

end NumberLiteral

namespace Token

/-- The spellings of a token. A number that is no integer keeps its text. -/
inductive Spelled : Token → List Char → Prop
  | openBracket : Spelled .openBracket ['[']
  | closeBracket : Spelled .closeBracket [']']
  | openBrace : Spelled .openBrace ['{']
  | closeBrace : Spelled .closeBrace ['}']
  | comma : Spelled .comma [',']
  | colon : Spelled .colon [':']
  | null : Spelled .null ['n', 'u', 'l', 'l']
  | trueValue : Spelled (.bool true) ['t', 'r', 'u', 'e']
  | falseValue : Spelled (.bool false) ['f', 'a', 'l', 's', 'e']
  | string {content : String} {text : List Char}
      (spells : StringLiteral.Spells content.toList text) :
      Spelled (.string content) ('"' :: (text ++ ['"']))
  | integer {literal : NumberLiteral} {value : Int} {text : List Char}
      (spells : literal.Spells text) (isInteger : literal.IsInteger value) :
      Spelled (.integer value) text
  | decimal {literal : NumberLiteral} {text : List Char} (spells : literal.Spells text)
      (noInteger : ∀ value, ¬ literal.IsInteger value) :
      Spelled (.decimal (String.ofList text)) text

/-- Nothing but space, tab, newline and carriage return. -/
def Blank (text : List Char) : Prop := ∀ char ∈ text, char ∈ [' ', '\t', '\n', '\r']

/-- The tokens in their order, with any space before, between and after them. -/
inductive Spaced : List Token → List Char → Prop
  | nil {space : List Char} (blank : Blank space) : Spaced [] space
  | cons {token : Token} {tokens : List Token} {space text rest : List Char} (blank : Blank space)
      (spelled : token.Spelled text) (others : Spaced tokens rest) :
      Spaced (token :: tokens) (space ++ (text ++ rest))

theorem blank_nil : Blank [] := nofun

theorem spaced_cons {token : Token} {tokens : List Token} {text rest : List Char}
    (spelled : token.Spelled text) (others : Spaced tokens rest) :
    Spaced (token :: tokens) (text ++ rest) :=
  @Spaced.cons token tokens [] text rest blank_nil spelled others

theorem spaced_append {space text : List Char} {tokens : List Token} (blank : Blank space)
    (spaced : Spaced tokens text) : Spaced tokens (space ++ text) := by
  cases spaced with
  | nil more => exact .nil (List.forall_mem_append.2 ⟨blank, more⟩)
  | cons more spelled others =>
      rw [← List.append_assoc]
      exact .cons (List.forall_mem_append.2 ⟨blank, more⟩) spelled others

end Token

/-- The text is strict JSON for the document. -/
def WrittenAs (document : Json) (text : List Char) : Prop := Token.Spaced document.tokens text

/-- The literal is a number that stands in the document. -/
inductive HasNumber (literal : NumberLiteral) : Json → Prop
  | integer {value : Int} {text : List Char} (spells : literal.Spells text)
      (isInteger : literal.IsInteger value) : HasNumber literal (.integer value)
  | decimal {text : String} (spells : literal.Spells text.toList) :
      HasNumber literal (.decimal text)
  | item {items : List Json} {item : Json} (member : item ∈ items)
      (inside : HasNumber literal item) : HasNumber literal (.array items)
  | field {fields : List Field} {field : Field} (member : field ∈ fields)
      (inside : HasNumber literal field.value) : HasNumber literal (.object fields)

/-- Every number in the document stays finite when it is converted to double precision. -/
def NumbersFinite (document : Json) : Prop :=
  ∀ literal : NumberLiteral, document.HasNumber literal → literal.roundsToFinite = true

end RhoFrontend.Json
