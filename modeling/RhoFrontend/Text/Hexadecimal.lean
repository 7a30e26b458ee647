/-!
Hexadecimal digits in either letter case, and the numbers that they spell.
-/

namespace RhoFrontend.Hexadecimal

def digitValue? (char : Char) : Option Nat :=
  if char.isDigit then some (char.toNat - 48)
  else if 'a' ≤ char ∧ char ≤ 'f' then some (char.toNat - 87)
  else if 'A' ≤ char ∧ char ≤ 'F' then some (char.toNat - 55)
  else none

/-- The number that digits spell after those that already make up `total`. -/
def valueFrom? (total : Nat) : List Char → Option Nat
  | [] => some total
  | digit :: rest =>
      match digitValue? digit with
      | some value => valueFrom? (total * 16 + value) rest
      | none => none

/-- The number that the first so many characters spell, if they are all there. -/
def valueOfFirst? (length : Nat) (text : List Char) : Option Nat :=
  let digits := text.take length
  if digits.length = length then valueFrom? 0 digits else none

end RhoFrontend.Hexadecimal
