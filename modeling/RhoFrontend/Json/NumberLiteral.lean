import RhoFrontend.Text.Integer

/-!
JSON number literals, taken apart into their digits. A literal that does not stay finite when it is
converted to double precision is refused wherever it stands, also where its value is of no use.
-/

namespace RhoFrontend.Json

/-- `[-] whole [. fraction] [e exponent]`. An absent fraction has no digits. -/
structure NumberLiteral where
  negative : Bool
  whole : List Char
  fraction : List Char
  exponent : Option Int

namespace NumberLiteral

def isPart (char : Char) : Bool :=
  char.isDigit || char == '-' || char == '+' || char == '.' || char == 'e' || char == 'E'

/-- Optional sign and digits after the letter of an exponent, and nothing else. -/
def exponentValue? (text : List Char) : Option Int :=
  let (negative, digits) : Bool × List Char :=
    match text with
    | '+' :: rest => (false, rest)
    | '-' :: rest => (true, rest)
    | rest => (false, rest)
  if digits.isEmpty || !digits.all Char.isDigit then none
  else some (Integer.valueOfDigits negative digits)

/-- An exponent, if there is one, and nothing else. -/
def exponent? : List Char → Option (Option Int)
  | [] => some none
  | 'e' :: rest | 'E' :: rest => (exponentValue? rest).map some
  | _ => none

/-- Digits after a decimal point, if there is one, and what follows. The point needs a digit. -/
def fraction? : List Char → Option (List Char × List Char)
  | '.' :: rest =>
      let digits := rest.takeWhile Char.isDigit
      if digits.isEmpty then none else some (digits, rest.drop digits.length)
  | rest => some ([], rest)

/-- The literal that a text is. A whole part of several digits starts with no zero. -/
def ofText? (text : List Char) : Option NumberLiteral :=
  let (negative, magnitude) : Bool × List Char :=
    match text with
    | '-' :: rest => (true, rest)
    | rest => (false, rest)
  let whole := magnitude.takeWhile Char.isDigit
  if whole.isEmpty || (whole.head? == some '0' && whole.length > 1) then none
  else
    match fraction? (magnitude.drop whole.length) with
    | none => none
    | some (fraction, rest) =>
        (exponent? rest).map fun exponent => ⟨negative, whole, fraction, exponent⟩

/-- The largest number that the reader's significand can hold. -/
def significandLimit : Nat := Nat.pow 2 64 - 1

/-- As many leading digits as fit a significand, as a number, and how many are left over. -/
def significand (value : Nat) : List Char → Nat × Nat
  | [] => (value, 0)
  | digit :: rest =>
      let next := value * 10 + (digit.toNat - 48)
      if next ≤ significandLimit then significand next rest else (value, rest.length + 1)

/-- The nearest number with 53 significant bits; a tie goes to the even one. -/
def roundToDouble (value : Nat) : Nat :=
  let shift := value.log2 + 1 - 53
  let unit := Nat.pow 2 shift
  let below := value / unit
  let rest := value % unit
  let up := 2 * rest > unit || (2 * rest == unit && below % 2 == 1)
  (if up then below + 1 else below) * unit

/-- Whether the literal stays finite when it is converted to double precision. The significand and
the power of ten are rounded each, and their product is rounded again. -/
def roundsToFinite (literal : NumberLiteral) : Bool :=
  let (value, dropped) := significand 0 (literal.whole ++ literal.fraction)
  let power := literal.exponent.getD 0 + dropped - literal.fraction.length
  if value = 0 ∨ power ≤ 0 then true
  else if power > 308 then false
  else
    let product := roundToDouble value * roundToDouble (Nat.pow 10 power.toNat)
    roundToDouble product < Nat.pow 2 1024

/-- Only a literal without fraction and exponent denotes an integer, and negative zero does not. -/
def integer? (literal : NumberLiteral) : Option Int :=
  let value := Integer.valueOfDigits literal.negative literal.whole
  if literal.fraction.isEmpty && literal.exponent.isNone && !(literal.negative && value == 0) then
    some value
  else none

end NumberLiteral

end RhoFrontend.Json
