/-!
Signed 64-bit integers and their decimal spelling. Writing uses a minus sign or none and no leading
zeros; reading takes any digits and says when their value does not fit.
-/

namespace RhoFrontend.Integer

/-- The 64-bit integer of this value, if there is one. -/
def ofInt? (value : Int) : Option Int64 :=
  if Int64.minValue.toInt ≤ value ∧ value ≤ Int64.maxValue.toInt then some (Int64.ofInt value)
  else none

/-- The number that decimal digits spell, in either sign. -/
def valueOfDigits (negative : Bool) (digits : List Char) : Int :=
  let magnitude : Int := Nat.ofDigitChars 10 digits 0
  if negative then -magnitude else magnitude

/-- The shortest decimal spelling: a minus sign where the number is negative, then its digits. -/
def digitsOfValue (value : Int) : List Char :=
  let digits := Nat.toDigits 10 value.natAbs
  if value < 0 then '-' :: digits else digits

def spelling (value : Int64) : List Char := digitsOfValue value.toInt

theorem of_int_to_int (value : Int64) : ofInt? value.toInt = some value := by
  have low := value.minValue_le_toInt
  have high := value.toInt_le
  simp only [ofInt?, low, high, and_self, if_true, Int64.ofInt_toInt]

theorem to_int_of_some {value : Int} {word : Int64} (fits : ofInt? value = some word) :
    word.toInt = value := by
  unfold ofInt? at fits
  split at fits
  · next bounds =>
      cases fits
      have low : Int64.minValue.toInt = -2 ^ 63 := by decide
      have high : Int64.maxValue.toInt = 2 ^ 63 - 1 := by decide
      exact Int64.toInt_ofInt_of_le (by omega) (by omega)
  · exact absurd fits (by simp)

end RhoFrontend.Integer
