import Mathlib.Algebra.Order.Field.Power
import Mathlib.Data.Rat.Cast.Order
import Mathlib.Tactic.Linarith
import Mathlib.Tactic.NormNum
import Mathlib.Tactic.Positivity
import Mathlib.Tactic.Ring
import RhoFrontend.Proofs.Json.Lexing

/-!
How the reader's limit for numbers relates to what they denote. The reader rounds three times and
drops digits that its significand cannot hold, so near the end of the double range it may err, but
by no more than one part in 2 ^ 50.
-/

namespace RhoFrontend.Json

namespace NumberLiteral

/-- The number that all digits denote, with no regard to the point. -/
def digitsValue (literal : NumberLiteral) : Nat :=
  Nat.ofDigitChars 10 (literal.whole ++ literal.fraction) 0

/-- How far the last digit stands from the place of the ones. -/
def scale (literal : NumberLiteral) : Int :=
  literal.exponent.getD 0 - literal.fraction.length

/-- The first power of two that double precision does not have. -/
def doubleLimit : Nat := Nat.pow 2 1024

/-- The largest number that double precision has. -/
def largestDouble : Nat := doubleLimit - Nat.pow 2 971

/-- The exact size of what the literal denotes. -/
def magnitude (literal : NumberLiteral) : ℚ := literal.digitsValue * 10 ^ literal.scale

/-- Rounding moves a number by one part in 2 ^ 53 at most. -/
theorem double_rounding_error (value : Nat) :
    2 ^ 53 * roundToDouble value ≤ (2 ^ 53 + 1) * value ∧
      (2 ^ 53 - 1) * value ≤ 2 ^ 53 * roundToDouble value := by
  let unit := 2 ^ (value.log2 + 1 - 53)
  let below := value / unit
  let rest := value % unit
  have whole : below * unit + rest = value := Nat.div_add_mod' value unit
  have small : rest < unit := Nat.mod_lt value (Nat.two_pow_pos _)
  -- A number of 53 bits is left as it is, and half a unit is little in a longer one.
  have near : 2 ^ 52 * unit ≤ value ∨ unit = 1 := by
    by_cases short : value.log2 + 1 ≤ 53
    · exact .inr (by simp only [unit, Nat.sub_eq_zero_of_le short, Nat.pow_zero])
    · refine .inl ?_
      have nonzero : value ≠ 0 := by
        rintro rfl
        exact short (by decide)
      have bits : 52 + (value.log2 + 1 - 53) = value.log2 := by omega
      rw [← Nat.pow_add, bits]
      exact Nat.log2_self_le nonzero
  have rounded : roundToDouble value = below * unit ∧ 2 * rest ≤ unit ∨
      roundToDouble value = (below + 1) * unit ∧ unit ≤ 2 * rest := by
    change (if _ then below + 1 else below) * unit = below * unit ∧ _ ∨
      (if _ then below + 1 else below) * unit = (below + 1) * unit ∧ _
    split
    · next up =>
        simp only [Bool.or_eq_true, Bool.and_eq_true, decide_eq_true_eq, beq_iff_eq] at up
        exact .inr ⟨rfl, up.elim Nat.le_of_lt fun tie => Nat.le_of_eq tie.1.symm⟩
    · next down =>
        simp only [Bool.or_eq_true, decide_eq_true_eq, not_or] at down
        exact .inl ⟨rfl, Nat.le_of_not_lt down.1⟩
  rcases rounded with ⟨same, half⟩ | ⟨same, half⟩
  · rw [same]
    omega
  · rw [same, Nat.add_mul]
    omega

theorem of_digit_chars_bounds {digits : List Char} (all : ∀ char ∈ digits, char.isDigit = true)
    (value : Nat) :
    value * 10 ^ digits.length ≤ Nat.ofDigitChars 10 digits value ∧
      Nat.ofDigitChars 10 digits value < (value + 1) * 10 ^ digits.length := by
  induction digits generalizing value with
  | nil => simp
  | cons digit digits induction =>
      obtain ⟨isDigit, others⟩ := List.forall_mem_cons.1 all
      have bound := (digit_char_of_digit isDigit).1
      obtain ⟨low, high⟩ := induction others (10 * value + (digit.toNat - '0'.toNat))
      rw [Nat.ofDigitChars_cons, List.length_cons, Nat.pow_succ', ← Nat.mul_assoc, ← Nat.mul_assoc]
      constructor
      · exact Nat.le_trans (Nat.mul_le_mul_right _ (by omega)) low
      · exact Nat.lt_of_lt_of_le high (Nat.mul_le_mul_right _ (by omega))

/-- A number and what a significand keeps of it: some leading digits, and how many others there are.
Digits are dropped only where the significand is full. -/
structure Keeps (number : Nat) (kept : Nat × Nat) : Prop where
  low : kept.1 * 10 ^ kept.2 ≤ number
  high : number < (kept.1 + 1) * 10 ^ kept.2
  fits : kept.1 ≤ significandLimit
  full : kept.2 = 0 ∨ significandLimit < (kept.1 + 1) * 10

theorem significand_keeps {digits : List Char} (all : ∀ char ∈ digits, char.isDigit = true)
    {value : Nat} (fits : value ≤ significandLimit) :
    Keeps (Nat.ofDigitChars 10 digits value) (significand value digits) := by
  induction digits generalizing value with
  | nil => exact ⟨by simp [significand], by simp [significand], fits, .inl rfl⟩
  | cons digit digits induction =>
      obtain ⟨isDigit, others⟩ := List.forall_mem_cons.1 all
      by_cases next : value * 10 + (digit.toNat - '0'.toNat) ≤ significandLimit
      · have same : significand value (digit :: digits) =
            significand (value * 10 + (digit.toNat - '0'.toNat)) digits := if_pos next
        rw [same, Nat.ofDigitChars_cons, Nat.mul_comm]
        exact induction others next
      · have same : significand value (digit :: digits) = (value, digits.length + 1) := if_neg next
        obtain ⟨low, high⟩ := of_digit_chars_bounds all value
        have bound := (digit_char_of_digit isDigit).1
        rw [same]
        exact ⟨low, high, fits, .inr (by omega)⟩

/-- Rounding both factors and their product makes three errors. -/
theorem product_rounding_error (first second : Nat) :
    2 ^ 159 * roundToDouble (roundToDouble first * roundToDouble second) ≤
        (2 ^ 53 + 1) ^ 3 * (first * second) ∧
      (2 ^ 53 - 1) ^ 3 * (first * second) ≤
        2 ^ 159 * roundToDouble (roundToDouble first * roundToDouble second) := by
  obtain ⟨firstHigh, firstLow⟩ := double_rounding_error first
  obtain ⟨secondHigh, secondLow⟩ := double_rounding_error second
  obtain ⟨high, low⟩ := double_rounding_error (roundToDouble first * roundToDouble second)
  generalize roundToDouble (roundToDouble first * roundToDouble second) = rounded at high low ⊢
  generalize roundToDouble first = near at firstHigh firstLow high low ⊢
  generalize roundToDouble second = other at secondHigh secondLow high low ⊢
  constructor
  · calc 2 ^ 159 * rounded = 2 ^ 106 * (2 ^ 53 * rounded) := by ring
      _ ≤ 2 ^ 106 * ((2 ^ 53 + 1) * (near * other)) := Nat.mul_le_mul_left _ high
      _ = (2 ^ 53 + 1) * (2 ^ 53 * near * (2 ^ 53 * other)) := by ring
      _ ≤ (2 ^ 53 + 1) * ((2 ^ 53 + 1) * first * ((2 ^ 53 + 1) * second)) :=
        Nat.mul_le_mul_left _ (Nat.mul_le_mul firstHigh secondHigh)
      _ = (2 ^ 53 + 1) ^ 3 * (first * second) := by ring
  · calc (2 ^ 53 - 1) ^ 3 * (first * second)
        = (2 ^ 53 - 1) * ((2 ^ 53 - 1) * first * ((2 ^ 53 - 1) * second)) := by ring
      _ ≤ (2 ^ 53 - 1) * (2 ^ 53 * near * (2 ^ 53 * other)) :=
        Nat.mul_le_mul_left _ (Nat.mul_le_mul firstLow secondLow)
      _ = 2 ^ 106 * ((2 ^ 53 - 1) * (near * other)) := by ring
      _ ≤ 2 ^ 106 * (2 ^ 53 * rounded) := Nat.mul_le_mul_left _ low
      _ = 2 ^ 159 * rounded := by ring

/-- What is kept of the literal's digits. -/
def kept (literal : NumberLiteral) : Nat × Nat := significand 0 (literal.whole ++ literal.fraction)

/-- The power of ten that goes with the significand. -/
def power (literal : NumberLiteral) : Int :=
  literal.exponent.getD 0 + literal.kept.2 - literal.fraction.length

/-- The number that the reader compares with the end of the range, if the power is positive. -/
def roundedProduct (literal : NumberLiteral) : Nat :=
  roundToDouble (roundToDouble literal.kept.1 * roundToDouble (10 ^ literal.power.toNat))

theorem rounds_to_finite_iff (literal : NumberLiteral) :
    literal.roundsToFinite = true ↔
      (literal.kept.1 = 0 ∨ literal.power ≤ 0) ∨
        literal.power ≤ 308 ∧ literal.roundedProduct < doubleLimit := by
  have same : literal.roundsToFinite =
      if literal.kept.1 = 0 ∨ literal.power ≤ 0 then true
      else if literal.power > 308 then false
      else decide (literal.roundedProduct < doubleLimit) := by
    unfold doubleLimit
    rfl
  rw [same]
  split
  · next small => simp only [small, true_or]
  · next large =>
      split
      · next far => simp only [large, Int.not_le.2 far, Bool.false_eq_true, false_and, or_self]
      · next near => simp only [large, Int.not_lt.1 near, decide_eq_true_eq, true_and, false_or]

theorem keeps_digits {literal : NumberLiteral} {text : List Char} (spelled : literal.Spells text) :
    Keeps literal.digitsValue literal.kept := by
  cases spelled with
  | parts isWhole hasFraction =>
      refine significand_keeps (List.forall_mem_append.2 ⟨isWhole.all, ?_⟩) (Nat.zero_le _)
      cases hasFraction with
      | absent => exact List.forall_mem_nil _
      | present nonempty all => exact all

theorem scaled_power (literal : NumberLiteral) :
    (10 : ℚ) ^ literal.power = 10 ^ literal.kept.2 * 10 ^ literal.scale := by
  have sum : literal.power = literal.kept.2 + literal.scale := by
    rw [power, scale]
    omega
  rw [sum, zpow_add₀ (by norm_num), zpow_natCast]

/-- The size of a literal, told from what is kept of it. -/
theorem magnitude_bounds {literal : NumberLiteral} {text : List Char}
    (spelled : literal.Spells text) :
    (literal.kept.1 : ℚ) * 10 ^ literal.power ≤ literal.magnitude ∧
      2 ^ 60 * literal.magnitude ≤ (2 ^ 60 + 1) * (literal.kept.1 * 10 ^ literal.power) := by
  have keeps := keeps_digits spelled
  have positive : (0 : ℚ) ≤ 10 ^ literal.scale := by positivity
  have high : 2 ^ 60 * literal.digitsValue ≤
      (2 ^ 60 + 1) * (literal.kept.1 * 10 ^ literal.kept.2) := by
    rcases keeps.full with exact | full
    · have same := keeps.high
      rw [exact] at same ⊢
      omega
    · have large : 2 ^ 60 ≤ literal.kept.1 := by
        have limit : significandLimit = 2 ^ 64 - 1 := by decide
        omega
      have next : 2 ^ 60 * (literal.kept.1 + 1) ≤ (2 ^ 60 + 1) * literal.kept.1 := by omega
      calc 2 ^ 60 * literal.digitsValue
          ≤ 2 ^ 60 * ((literal.kept.1 + 1) * 10 ^ literal.kept.2) :=
            Nat.mul_le_mul_left _ keeps.high.le
        _ = 2 ^ 60 * (literal.kept.1 + 1) * 10 ^ literal.kept.2 := (Nat.mul_assoc _ _ _).symm
        _ ≤ (2 ^ 60 + 1) * literal.kept.1 * 10 ^ literal.kept.2 := Nat.mul_le_mul_right _ next
        _ = (2 ^ 60 + 1) * (literal.kept.1 * 10 ^ literal.kept.2) := Nat.mul_assoc _ _ _
  have low : (literal.kept.1 : ℚ) * 10 ^ literal.kept.2 ≤ literal.digitsValue := by
    exact_mod_cast keeps.low
  have high : (2 : ℚ) ^ 60 * literal.digitsValue ≤
      (2 ^ 60 + 1) * (literal.kept.1 * 10 ^ literal.kept.2) := by
    exact_mod_cast high
  rw [scaled_power, magnitude, ← mul_assoc, ← mul_assoc, ← mul_assoc]
  exact ⟨mul_le_mul_of_nonneg_right low positive, mul_le_mul_of_nonneg_right high positive⟩

/-- The product before it is rounded. -/
def exactProduct (literal : NumberLiteral) : Nat := literal.kept.1 * 10 ^ literal.power.toNat

theorem exact_product_eq {literal : NumberLiteral} (positive : 0 < literal.power) :
    (literal.exactProduct : ℚ) = literal.kept.1 * 10 ^ literal.power := by
  obtain ⟨power, same⟩ := Int.eq_ofNat_of_zero_le positive.le
  rw [exactProduct, same, Int.toNat_natCast, zpow_natCast]
  push_cast
  rfl

theorem exact_product_bounds (literal : NumberLiteral) :
    2 ^ 159 * literal.roundedProduct ≤ (2 ^ 53 + 1) ^ 3 * literal.exactProduct ∧
      (2 ^ 53 - 1) ^ 3 * literal.exactProduct ≤ 2 ^ 159 * literal.roundedProduct :=
  product_rounding_error literal.kept.1 (10 ^ literal.power.toNat)

private theorem pow_pow_le {base first second power : Nat} (positive : 0 < base)
    (far : first * second ≤ power) : (base ^ first) ^ second ≤ base ^ power := by
  rw [← Nat.pow_mul]
  exact Nat.pow_le_pow_right positive far

theorem double_limit_le {power : Nat} (far : 103 * 3 ≤ power) : doubleLimit ≤ 10 ^ power := by
  have limit : doubleLimit ≤ (10 ^ 103) ^ 3 := by decide +kernel
  exact Nat.le_trans limit (pow_pow_le (by decide) far)

/-- A literal within the double range stays finite, but for the last part in 2 ^ 50. -/
theorem rounds_to_finite_of_le {literal : NumberLiteral} {text : List Char}
    (spelled : literal.Spells text)
    (below : (2 ^ 50 + 1) * literal.magnitude ≤ 2 ^ 50 * doubleLimit) :
    literal.roundsToFinite = true := by
  rw [rounds_to_finite_iff]
  by_cases small : literal.kept.1 = 0 ∨ literal.power ≤ 0
  · exact .inl small
  · obtain ⟨nonzero, positive⟩ := not_or.1 small
    have low := (magnitude_bounds spelled).1
    rw [← exact_product_eq (Int.not_le.1 positive)] at low
    have product : (2 ^ 50 + 1) * literal.exactProduct ≤ 2 ^ 50 * doubleLimit := by
      have exact : (2 ^ 50 + 1) * (literal.exactProduct : ℚ) ≤ 2 ^ 50 * doubleLimit := by linarith
      exact_mod_cast exact
    have large : 0 < doubleLimit := by decide +kernel
    refine .inr ⟨?_, ?_⟩
    · by_contra far
      have digits : 103 * 3 ≤ literal.power.toNat := by omega
      have beyond := double_limit_le digits
      have least : 10 ^ literal.power.toNat ≤ literal.exactProduct :=
        Nat.le_mul_of_pos_left _ (Nat.pos_of_ne_zero nonzero)
      omega
    · have rounded := (exact_product_bounds literal).1
      omega

/-- A literal that stays finite is within the double range, or beyond it by one part in 2 ^ 50 at
most. -/
theorem magnitude_lt_of_rounds_to_finite {literal : NumberLiteral} {text : List Char}
    (spelled : literal.Spells text) (finite : literal.roundsToFinite = true) :
    2 ^ 50 * literal.magnitude < (2 ^ 50 + 1) * doubleLimit := by
  have high := (magnitude_bounds spelled).2
  have large : 2 ^ 66 ≤ doubleLimit := by decide +kernel
  have large : (2 : ℚ) ^ 66 ≤ doubleLimit := by exact_mod_cast large
  by_cases small : literal.power ≤ 0
  · have fits : literal.kept.1 ≤ 2 ^ 64 := (keeps_digits spelled).fits.trans (by decide)
    have fits : (literal.kept.1 : ℚ) ≤ 2 ^ 64 := by exact_mod_cast fits
    have one : (10 : ℚ) ^ literal.power ≤ 1 := zpow_le_one_of_nonpos₀ (by norm_num) small
    have product := mul_le_mul fits one (by positivity) (by positivity)
    linarith
  · rw [← exact_product_eq (Int.not_le.1 small)] at high
    have rounded := (exact_product_bounds literal).2
    have product : 2 ^ 51 * literal.exactProduct < (2 ^ 51 + 1) * doubleLimit := by
      rcases literal.rounds_to_finite_iff.1 finite with (zero | below) | ⟨_, below⟩
      · rw [exactProduct, zero, Nat.zero_mul]
        omega
      · exact absurd below small
      · omega
    have product : (2 ^ 51 : ℚ) * literal.exactProduct < (2 ^ 51 + 1) * doubleLimit := by
      exact_mod_cast product
    linarith

end NumberLiteral

variable {document : Json}

/-- No number in the document is larger than the bound. -/
def NumbersWithin (document : Json) (bound : ℚ) : Prop :=
  ∀ literal : NumberLiteral, document.HasNumber literal → literal.magnitude ≤ bound

theorem spells_of_has_number {literal : NumberLiteral} (number : document.HasNumber literal) :
    ∃ text, literal.Spells text := by
  induction number with
  | integer spells _ => exact ⟨_, spells⟩
  | decimal spells => exact ⟨_, spells⟩
  | item _ _ induction => exact induction
  | field _ _ induction => exact induction

theorem numbers_finite_of_within
    (within : document.NumbersWithin (2 ^ 50 / (2 ^ 50 + 1) * NumberLiteral.doubleLimit)) :
    document.NumbersFinite := by
  intro literal number
  obtain ⟨text, spelled⟩ := spells_of_has_number number
  have below := within literal number
  exact NumberLiteral.rounds_to_finite_of_le spelled (by linarith)

theorem numbers_within_of_finite (finite : document.NumbersFinite) :
    document.NumbersWithin ((2 ^ 50 + 1) / 2 ^ 50 * NumberLiteral.doubleLimit) := by
  intro literal number
  obtain ⟨text, spelled⟩ := spells_of_has_number number
  have below := NumberLiteral.magnitude_lt_of_rounds_to_finite spelled (finite literal number)
  linarith

end RhoFrontend.Json
