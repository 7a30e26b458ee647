import Mathlib.Data.List.Induction
import RhoFrontend.Proofs.Json.Text

/-!
The reader of JSON tokens finds each spelled token whole. Only a number has to be told where it
ends, because it would take any character that numbers are made of.
-/

namespace RhoFrontend.Json

namespace StringLiteral

theorem digit_value_of_hex_digit {value : Nat} {char : Char} (digit : IsHexDigit value char) :
    Hexadecimal.digitValue? char = some value := by
  have every : ∀ number < 16,
      Hexadecimal.digitValue? (Nat.digitChar number) = some number ∧
        Hexadecimal.digitValue? (Nat.digitChar number).toUpper = some number := by decide
  obtain ⟨bound, rfl | rfl⟩ := digit
  · exact (every value bound).1
  · exact (every value bound).2

theorem unit_append {unit : Nat} {digits : List Char} (code : CodeUnit unit digits)
    (rest : List Char) : unit? (digits ++ rest) = some unit := by
  obtain ⟨first, second, third, fourth⟩ := code
  have read := digit_value_of_hex_digit first
  have readSecond := digit_value_of_hex_digit second
  have readThird := digit_value_of_hex_digit third
  have readFourth := digit_value_of_hex_digit fourth
  simp [unit?, Hexadecimal.valueOfFirst?, Hexadecimal.valueFrom?, read, readSecond, readThird,
    readFourth]

theorem length_of_code_unit {unit : Nat} {digits : List Char} (code : CodeUnit unit digits) :
    digits.length = 4 := by
  cases code
  rfl

/-- The code of a character is no surrogate, so it stands alone. -/
theorem not_surrogate (char : Char) :
    isHighSurrogate char.toNat = false ∧ isLowSurrogate char.toNat = false := by
  have valid : char.toNat < 0xD800 ∨ 0xDFFF < char.toNat ∧ char.toNat < 0x110000 := char.valid
  simp only [isHighSurrogate, isLowSurrogate, Bool.and_eq_false_iff, decide_eq_false_iff_not]
  omega

theorem unicode_escape_of_unit {char : Char} {digits : List Char}
    (code : CodeUnit char.toNat digits) (rest : List Char) :
    unicodeEscape? (digits ++ rest) = some (char, 4) := by
  obtain ⟨noHigh, noLow⟩ := not_surrogate char
  simp [unicodeEscape?, unit_append code, noHigh, noLow]

theorem unicode_escape_of_pair {char : Char} {high low : Nat} {first second : List Char}
    (highCode : CodeUnit high first) (lowCode : CodeUnit low second)
    (isHigh : 0xD800 ≤ high ∧ high < 0xDC00) (isLow : 0xDC00 ≤ low ∧ low < 0xE000)
    (value : char.toNat = 0x10000 + (high - 0xD800) * 0x400 + (low - 0xDC00)) (rest : List Char) :
    unicodeEscape? (first ++ '\\' :: 'u' :: (second ++ rest)) = some (char, 10) := by
  have readsHigh : isHighSurrogate high = true := by simp [isHighSurrogate, isHigh]
  have readsLow : isLowSurrogate low = true := by simp [isLowSurrogate, isLow]
  have after : (first ++ '\\' :: 'u' :: (second ++ rest)).drop 4 =
      '\\' :: 'u' :: (second ++ rest) := by
    rw [← length_of_code_unit highCode, List.drop_left]
  simp [unicodeEscape?, unit_append highCode, readsHigh, after, unit_append lowCode, readsLow,
    ← value]

theorem escape_of_letter {letter char : Char} (known : (letter, char) ∈ letterEscapes)
    (rest : List Char) : escape? (letter :: rest) = some (char, 1) := by
  simp only [letterEscapes, List.mem_cons, Prod.mk.injEq, List.not_mem_nil, or_false] at known
  rcases known with known | known | known | known | known | known | known | known <;>
    obtain ⟨rfl, rfl⟩ := known <;> rfl

/-- After a backslash the reader goes on behind the escape. -/
theorem decode_escape {char : Char} {escape text : List Char}
    (escaped : escape? (escape ++ text) = some (char, escape.length)) :
    decode ('\\' :: (escape ++ text)) =
      (decode text).map fun (content, total) => (char :: content, total + escape.length + 1) := by
  have opens : ('\\' : Char) ≠ '"' := by decide
  rw [decode, if_neg opens, if_pos rfl, escaped]
  simp only [List.drop_left]

theorem decode_spelled {content text : List Char} (spelled : Spells content text)
    (rest : List Char) : decode (text ++ '"' :: rest) = some (content, text.length + 1) := by
  induction spelled with
  | nil =>
      rw [List.nil_append, decode]
      rfl
  | plain visible notQuote notBackslash _ induction =>
      rw [List.cons_append, decode, if_neg notQuote, if_neg notBackslash,
        if_neg (Nat.not_lt.2 visible), induction]
      rfl
  | @letter letter char content text known _ induction =>
      have escaped : escape? ([letter] ++ (text ++ '"' :: rest)) = some (char, 1) :=
        escape_of_letter known _
      have read := decode_escape escaped
      rw [induction] at read
      exact read
  | @unit char digits content text code _ induction =>
      have escaped : escape? (('u' :: digits) ++ (text ++ '"' :: rest)) =
          some (char, ('u' :: digits).length) := by
        simp [escape?, unicode_escape_of_unit code, length_of_code_unit code]
      have read := decode_escape escaped
      rw [induction] at read
      have shape : '\\' :: 'u' :: (digits ++ text) ++ '"' :: rest =
          '\\' :: (('u' :: digits) ++ (text ++ '"' :: rest)) := by simp
      rw [shape, read]
      simp
      omega
  | @pair char high low first second content text highCode lowCode isHigh isLow value _ induction =>
      have escaped : escape? (('u' :: (first ++ '\\' :: 'u' :: second)) ++ (text ++ '"' :: rest)) =
          some (char, ('u' :: (first ++ '\\' :: 'u' :: second)).length) := by
        have pair := unicode_escape_of_pair highCode lowCode isHigh isLow value
          (text ++ '"' :: rest)
        simp [escape?, pair, length_of_code_unit highCode, length_of_code_unit lowCode]
      have read := decode_escape escaped
      rw [induction] at read
      have shape : '\\' :: 'u' :: (first ++ '\\' :: 'u' :: (second ++ text)) ++ '"' :: rest =
          '\\' :: (('u' :: (first ++ '\\' :: 'u' :: second)) ++ (text ++ '"' :: rest)) := by simp
      rw [shape, read]
      simp
      omega

end StringLiteral

namespace NumberLiteral

theorem part_of_digit {char : Char} (digit : char.isDigit = true) : isPart char = true := by
  simp [isPart, digit]

theorem parts_of_exponent {exponent : Option Int} {text : List Char}
    (spelled : ExponentText exponent text) : ∀ char ∈ text, isPart char = true := by
  cases spelled with
  | absent => exact fun char none => by cases none
  | present marked signed nonempty all =>
      refine List.forall_mem_cons.2 ⟨?_, List.forall_mem_append.2 ⟨?_, ?_⟩⟩
      · rcases marked with rfl | rfl <;> rfl
      · cases signed <;> exact List.all_eq_true.1 rfl
      · exact fun char member => part_of_digit (all char member)

theorem parts_of_fraction {digits text : List Char} (spelled : FractionText digits text) :
    ∀ char ∈ text, isPart char = true := by
  cases spelled with
  | absent => exact fun char none => by cases none
  | present nonempty all =>
      exact List.forall_mem_cons.2 ⟨rfl, fun char member => part_of_digit (all char member)⟩

theorem parts_of_spelled {literal : NumberLiteral} {text : List Char}
    (spelled : literal.Spells text) : ∀ char ∈ text, isPart char = true := by
  cases spelled with
  | @parts negative _ _ _ _ _ isWhole hasFraction hasExponent =>
      refine List.forall_mem_append.2 ⟨?_, List.forall_mem_append.2 ⟨?_, ?_⟩⟩
      · cases negative <;> exact List.all_eq_true.1 rfl
      · exact fun char member => part_of_digit (isWhole.all char member)
      · exact List.forall_mem_append.2
          ⟨parts_of_fraction hasFraction, parts_of_exponent hasExponent⟩

theorem not_sign_of_digit {first : Char} (digit : first.isDigit = true) :
    first ≠ '+' ∧ first ≠ '-' := by
  constructor
  · rintro rfl
    cases digit
  · rintro rfl
    cases digit

theorem exponent_value_spelled {negative : Bool} {sign digits : List Char}
    (signed : RhoFrontend.Token.Sign negative sign) (nonempty : digits ≠ [])
    (all : ∀ char ∈ digits, char.isDigit = true) :
    exponentValue? (sign ++ digits) = some (Integer.valueOfDigits negative digits) := by
  have digitsOnly : digits.all Char.isDigit = true := List.all_eq_true.2 all
  cases signed with
  | plus | minus => simp [exponentValue?, nonempty, digitsOnly]
  | absent =>
      obtain ⟨first, body, rfl⟩ := List.exists_cons_of_ne_nil nonempty
      obtain ⟨notPlus, notMinus⟩ := not_sign_of_digit (all first List.mem_cons_self)
      simp [exponentValue?, notPlus, notMinus, digitsOnly]

theorem exponent_spelled {exponent : Option Int} {text : List Char}
    (spelled : ExponentText exponent text) : exponent? text = some exponent := by
  cases spelled with
  | absent => rfl
  | present marked signed nonempty all =>
      have read := exponent_value_spelled signed nonempty all
      rcases marked with rfl | rfl <;> simp [exponent?, read]

/-- An exponent does not start with a digit or a point, so digits before it end there. -/
theorem head_of_exponent {exponent : Option Int} {text : List Char}
    (spelled : ExponentText exponent text) :
    ∀ char ∈ text.head?, char.isDigit = false ∧ char ≠ '.' := by
  cases spelled with
  | absent => exact fun char none => by cases none
  | present marked =>
      rintro char ⟨⟩
      rcases marked with rfl | rfl <;> decide

theorem fraction_spelled {fraction fractionText exponentText : List Char} {exponent : Option Int}
    (hasFraction : FractionText fraction fractionText)
    (hasExponent : ExponentText exponent exponentText) :
    fraction? (fractionText ++ exponentText) = some (fraction, exponentText) := by
  have head := head_of_exponent hasExponent
  cases hasFraction with
  | absent =>
      rw [List.nil_append]
      unfold fraction?
      split
      · exact absurd rfl (head '.' rfl).2
      · rfl
  | @present digits nonempty all =>
      have taken : (fraction ++ exponentText).takeWhile Char.isDigit = fraction :=
        Lexeme.take_while_append all fun char first => (head char first).1
      simp [fraction?, taken, nonempty]

theorem head_of_fraction {fraction fractionText exponentText : List Char} {exponent : Option Int}
    (hasFraction : FractionText fraction fractionText)
    (hasExponent : ExponentText exponent exponentText) :
    ∀ char ∈ (fractionText ++ exponentText).head?, char.isDigit = false := by
  cases hasFraction with
  | absent => exact fun char first => (head_of_exponent hasExponent char first).1
  | present =>
      rintro char ⟨⟩
      rfl

theorem of_text_spelled {literal : NumberLiteral} {text : List Char}
    (spelled : literal.Spells text) : ofText? text = some literal := by
  cases spelled with
  | @parts negative whole fraction fractionText exponentText exponent isWhole hasFraction
      hasExponent =>
      have taken : (whole ++ (fractionText ++ exponentText)).takeWhile Char.isDigit = whole :=
        Lexeme.take_while_append isWhole.all (head_of_fraction hasFraction hasExponent)
      have readFraction := fraction_spelled hasFraction hasExponent
      have readExponent := exponent_spelled hasExponent
      obtain ⟨first, body, rfl⟩ := List.exists_cons_of_ne_nil isWhole.nonempty
      have zeroAlone : first = '0' → body = [] :=
        fun zero => isWhole.noLeadingZero body (zero ▸ rfl)
      have notMinus := (not_sign_of_digit (isWhole.all first List.mem_cons_self)).2
      rw [List.cons_append] at taken
      cases negative with
      | true => simpa [ofText?, taken, readFraction, readExponent] using zeroAlone
      | false => simpa [ofText?, notMinus, taken, readFraction, readExponent] using zeroAlone

/-- A text is the spelling of one literal at most. -/
theorem Spells.unique {literal other : NumberLiteral} {text : List Char}
    (spelled : literal.Spells text) (otherSpelled : other.Spells text) : literal = other := by
  have same := of_text_spelled spelled
  rw [of_text_spelled otherSpelled] at same
  exact (Option.some.inj same).symm

theorem integer_eq_some_iff {literal : NumberLiteral} {value : Int} :
    literal.integer? = some value ↔ literal.IsInteger value := by
  constructor
  · intro read
    simp only [integer?] at read
    split at read
    · next plain =>
        cases read
        simp only [Bool.and_eq_true, List.isEmpty_iff, Option.isNone_iff_eq_none, Bool.not_eq_true',
          Bool.and_eq_false_iff, beq_eq_false_iff_ne] at plain
        obtain ⟨⟨noFraction, noExponent⟩, notZero⟩ := plain
        refine ⟨noFraction, noExponent, rfl, fun negative => notZero.resolve_left ?_⟩
        simp [negative]
    · cases read
  · rintro ⟨noFraction, noExponent, rfl, notZero⟩
    simp only [integer?, noFraction, noExponent]
    cases sign : literal.negative with
    | false => rfl
    | true =>
        have notZero := notZero sign
        rw [sign] at notZero
        simp [notZero]

theorem digit_char_of_digit {char : Char} (digit : char.isDigit = true) :
    char.toNat - '0'.toNat < 10 ∧ Nat.digitChar (char.toNat - '0'.toNat) = char := by
  have every : ∀ code < 58, (Char.ofNat code).isDigit = true →
      code - '0'.toNat < 10 ∧ Nat.digitChar (code - '0'.toNat) = Char.ofNat code := by decide
  have below : char.toNat < 58 := Nat.lt_succ_of_le (Char.isDigit_iff_toNat.1 digit).2
  have found := every char.toNat below
  rw [Char.ofNat_toNat] at found
  exact found digit

/-- A whole part is the shortest spelling of its value. -/
theorem to_digits_of_whole {digits : List Char} (isWhole : IsWhole digits) :
    Nat.toDigits 10 (Nat.ofDigitChars 10 digits 0) = digits := by
  induction digits using List.reverseRecOn with
  | nil => exact absurd rfl isWhole.nonempty
  | append_singleton front last induction =>
      obtain ⟨small, same⟩ := digit_char_of_digit (isWhole.all last (by simp))
      rw [Nat.ofDigitChars_append, Nat.ofDigitChars_cons, Nat.ofDigitChars_nil]
      cases front with
      | nil => rw [Nat.ofDigitChars_nil, Nat.mul_zero, Nat.zero_add, Nat.toDigits_of_lt_base small,
          same, List.nil_append]
      | cons first body =>
          have notZero : first ≠ '0' := by
            rintro rfl
            have alone := isWhole.noLeadingZero (body ++ [last]) rfl
            simp at alone
          have whole : IsWhole (first :: body) :=
            ⟨by simp, fun char member => isWhole.all char (List.mem_append_left _ member),
              fun rest starts => absurd (List.cons.inj starts).1 notZero⟩
          have shorter := induction whole
          have positive : 0 < Nat.ofDigitChars 10 (first :: body) 0 := by
            apply Nat.pos_of_ne_zero
            intro zero
            rw [zero, Nat.toDigits_zero] at shorter
            exact notZero (List.cons.inj shorter).1.symm
          generalize Nat.ofDigitChars 10 (first :: body) 0 = front at shorter positive ⊢
          rw [Nat.toDigits_of_base_le (by decide) (by omega)]
          have quotient : (10 * front + (last.toNat - '0'.toNat)) / 10 = front := by omega
          have rest : (10 * front + (last.toNat - '0'.toNat)) % 10 = last.toNat - '0'.toNat := by
            omega
          rw [quotient, rest, shorter, same]

theorem whole_of_spelled {literal : NumberLiteral} {text : List Char}
    (spelled : literal.Spells text) : IsWhole literal.whole := by
  cases spelled with
  | parts isWhole => exact isWhole

theorem IsInteger.negative_eq {literal : NumberLiteral} {value : Int}
    (isInteger : literal.IsInteger value) : literal.negative = decide (value < 0) := by
  obtain ⟨-, -, rfl, notZero⟩ := isInteger
  cases sign : literal.negative with
  | false => simp [Integer.valueOfDigits]
  | true =>
      have notZero := notZero sign
      simp only [Integer.valueOfDigits, sign, if_true] at notZero ⊢
      rw [eq_comm, decide_eq_true_eq]
      omega

/-- Strict JSON has one literal for an integer. -/
theorem eq_of_is_integer {literal other : NumberLiteral} {value : Int}
    (isWhole : IsWhole literal.whole) (otherWhole : IsWhole other.whole)
    (isInteger : literal.IsInteger value) (otherInteger : other.IsInteger value) :
    literal = other := by
  have signs : literal.negative = other.negative :=
    isInteger.negative_eq.trans otherInteger.negative_eq.symm
  have values : Nat.ofDigitChars 10 literal.whole 0 = Nat.ofDigitChars 10 other.whole 0 := by
    have same := isInteger.denotes.symm.trans otherInteger.denotes
    rw [signs] at same
    simp only [Integer.valueOfDigits] at same
    split at same <;> omega
  have wholes : literal.whole = other.whole := by
    rw [← to_digits_of_whole isWhole, values, to_digits_of_whole otherWhole]
  obtain ⟨_, _, _, _⟩ := literal
  obtain ⟨_, _, _, _⟩ := other
  obtain ⟨rfl, rfl, -, -⟩ := isInteger
  obtain ⟨rfl, rfl, -, -⟩ := otherInteger
  cases signs
  cases wholes
  rfl

theorem head_of_spelled {literal : NumberLiteral} {text : List Char}
    (spelled : literal.Spells text) :
    ∃ first body, text = first :: body ∧ (first = '-' ∨ first.isDigit = true) := by
  cases spelled with
  | @parts negative whole _ _ _ _ isWhole =>
      obtain ⟨first, body, rfl⟩ := List.exists_cons_of_ne_nil isWhole.nonempty
      cases negative with
      | true => exact ⟨'-', _, rfl, .inl rfl⟩
      | false => exact ⟨first, _, rfl, .inr (isWhole.all first List.mem_cons_self)⟩

end NumberLiteral

namespace Token

/-- What stands behind a number does not go on with it. -/
def EndsNumber (rest : List Char) : Prop := ∀ char ∈ rest.head?, NumberLiteral.isPart char = false

theorem number_spelled {literal : NumberLiteral} {text rest : List Char}
    (spelled : literal.Spells text) (ends : EndsNumber rest) :
    number? (text ++ rest) =
      if literal.roundsToFinite then
        match literal.integer? with
        | some value => some (.integer value, text.length)
        | none => some (.decimal (String.ofList text), text.length)
      else none := by
  have taken : (text ++ rest).takeWhile NumberLiteral.isPart = text :=
    Lexeme.take_while_append (NumberLiteral.parts_of_spelled spelled) ends
  cases value : literal.integer? <;>
    simp only [number?, taken, NumberLiteral.of_text_spelled spelled, value]

theorem next_of_number {first : Char} {rest : List Char}
    (number : first = '-' ∨ first.isDigit = true) : next? first rest = number? (first :: rest) := by
  unfold next?
  split
  all_goals first | rfl | exact absurd number (by decide)

theorem not_space_of_number {first : Char} (number : first = '-' ∨ first.isDigit = true) :
    isSpace first = false := by
  rw [Bool.eq_false_iff]
  intro space
  simp only [isSpace, Bool.or_eq_true, beq_iff_eq] at space
  rcases space with ((rfl | rfl) | rfl) | rfl <;> exact absurd number (by decide)

def IsNumber : Token → Prop
  | .integer _ | .decimal _ => True
  | _ => False

/-- The number that the token is, if it is one, stays finite as the reader converts it. -/
def StaysFinite : Token → Prop
  | .integer value => ∀ literal : NumberLiteral, ∀ text, literal.Spells text →
      literal.IsInteger value → literal.roundsToFinite = true
  | .decimal text => ∀ literal : NumberLiteral, literal.Spells text.toList →
      literal.roundsToFinite = true
  | _ => True

/-- A number has one literal only, so one of them tells whether it stays finite. -/
theorem integer_stays_finite_iff {literal : NumberLiteral} {value : Int} {text : List Char}
    (spells : literal.Spells text) (isInteger : literal.IsInteger value) :
    (Token.integer value).StaysFinite ↔ literal.roundsToFinite = true := by
  constructor
  · intro finite
    exact finite literal text spells isInteger
  · intro finite other otherText otherSpells otherInteger
    have whole := NumberLiteral.whole_of_spelled spells
    have otherWhole := NumberLiteral.whole_of_spelled otherSpells
    rw [NumberLiteral.eq_of_is_integer otherWhole whole otherInteger isInteger]
    exact finite

theorem decimal_stays_finite_iff {literal : NumberLiteral} {text : String}
    (spells : literal.Spells text.toList) :
    (Token.decimal text).StaysFinite ↔ literal.roundsToFinite = true := by
  constructor
  · intro finite
    exact finite literal spells
  · intro finite other otherSpells
    rwa [otherSpells.unique spells]

/-- Before the rest the reader takes the text for the token, if that stays finite, and nothing
otherwise. No space starts the text. -/
def Taken (token : Token) (text rest : List Char) : Prop :=
  ∃ first body, text = first :: body ∧ isSpace first = false ∧
    (token.StaysFinite → next? first (body ++ rest) = some (token, body.length + 1)) ∧
    (¬ token.StaysFinite → next? first (body ++ rest) = none)

theorem taken_of_number {token : Token} {literal : NumberLiteral} {text rest : List Char}
    (spells : literal.Spells text) (finite : token.StaysFinite ↔ literal.roundsToFinite = true)
    (read : number? (text ++ rest) =
      if literal.roundsToFinite then some (token, text.length) else none) :
    token.Taken text rest := by
  obtain ⟨first, body, rfl, starts⟩ := NumberLiteral.head_of_spelled spells
  refine ⟨first, body, rfl, not_space_of_number starts, ?_⟩
  rw [next_of_number starts, finite]
  apply And.intro <;> intro decided
  · rwa [if_pos decided] at read
  · rwa [if_neg decided] at read

theorem taken_of_other {token : Token} {first : Char} {body rest : List Char}
    (notSpace : isSpace first = false) (finite : token.StaysFinite)
    (read : next? first (body ++ rest) = some (token, body.length + 1)) :
    token.Taken (first :: body) rest :=
  ⟨first, body, rfl, notSpace, fun _ => read, fun infinite => absurd finite infinite⟩

theorem taken_of_spelled {token : Token} {text rest : List Char} (spelled : token.Spelled text)
    (ends : token.IsNumber → EndsNumber rest) : token.Taken text rest := by
  cases spelled with
  | openBracket | closeBracket | openBrace | closeBrace | comma | colon =>
      exact taken_of_other rfl (by trivial) rfl
  | null | trueValue | falseValue =>
      apply taken_of_other rfl
      · trivial
      · simp [next?, word?, spelling]
  | @string content text spells =>
      apply taken_of_other rfl
      · trivial
      · simp [next?, StringLiteral.decode_spelled spells]
  | @integer literal value _ spells isInteger =>
      apply taken_of_number spells (integer_stays_finite_iff spells isInteger)
      rw [number_spelled spells (ends trivial), NumberLiteral.integer_eq_some_iff.2 isInteger]
  | @decimal literal _ spells noInteger =>
      have none : literal.integer? = none :=
        Option.eq_none_iff_forall_ne_some.2 fun value read =>
          noInteger value (NumberLiteral.integer_eq_some_iff.1 read)
      have spelledText : literal.Spells (String.ofList text).toList := by
        rwa [String.toList_ofList]
      apply taken_of_number spells (decimal_stays_finite_iff spelledText)
      rw [number_spelled spells (ends trivial), none]

theorem of_text_space {space : List Char} (blank : Blank space) (rest : List Char) :
    ofText? (space ++ rest) = ofText? rest := by
  induction space with
  | nil => rfl
  | cons first space induction =>
      have isBlank : isSpace first = true := by
        have known := blank first List.mem_cons_self
        simpa [isSpace, or_assoc] using known
      rw [List.cons_append, ofText?, if_pos isBlank]
      exact induction fun char member => blank char (List.mem_cons_of_mem first member)

theorem of_text_token {token : Token} {text rest : List Char} (spelled : token.Spelled text)
    (ends : token.IsNumber → EndsNumber rest) :
    (token.StaysFinite → ofText? (text ++ rest) = (ofText? rest).map (token :: ·)) ∧
      (¬ token.StaysFinite → ofText? (text ++ rest) = none) := by
  obtain ⟨first, body, rfl, notSpace, read, notRead⟩ := taken_of_spelled spelled ends
  rw [List.cons_append, ofText?, notSpace]
  constructor
  · intro finite
    rw [read finite]
    simp
  · intro infinite
    rw [notRead infinite]
    rfl

/-- The tokens that may stand behind a value. -/
def Closes : Token → Prop
  | .comma | .closeBracket | .closeBrace => True
  | _ => False

/-- No two tokens in a row could be read as one number. -/
def Apart : List Token → Prop
  | [] => True
  | token :: rest => (token.IsNumber → ∀ next ∈ rest.head?, next.Closes) ∧ Apart rest

theorem ends_number_of_closes {tokens : List Token} {text : List Char} (spaced : Spaced tokens text)
    (closes : ∀ next ∈ tokens.head?, next.Closes) : EndsNumber text := by
  have blankEnds {space : List Char} (blank : Blank space) : EndsNumber space := by
    intro char first
    have known := blank char (List.mem_of_mem_head? first)
    simp only [List.mem_cons, List.not_mem_nil, or_false] at known
    rcases known with rfl | rfl | rfl | rfl <;> rfl
  cases spaced with
  | nil blank => exact blankEnds blank
  | @cons token _ space _ _ blank spelled =>
      cases space with
      | cons char space => exact @blankEnds (char :: space) blank
      | nil =>
          have closing := closes token rfl
          cases spelled with
          | closeBracket | closeBrace | comma =>
              rintro char ⟨⟩
              rfl
          | _ => exact closing.elim

/-- Spaced tokens are read exactly if all numbers among them stay finite. -/
theorem of_text_spaced {tokens read : List Token} {text : List Char} (spaced : Spaced tokens text)
    (apart : Apart tokens) :
    ofText? text = some read ↔ read = tokens ∧ ∀ token ∈ tokens, token.StaysFinite := by
  induction spaced generalizing read with
  | nil blank =>
      have nothing := of_text_space blank []
      rw [List.append_nil] at nothing
      rw [nothing, ofText?, Option.some.injEq, eq_comm]
      exact ⟨fun same => ⟨same, List.forall_mem_nil _⟩, And.left⟩
  | @cons token tokens space text rest blank spelled others induction =>
      have ends (number : token.IsNumber) : EndsNumber rest :=
        ends_number_of_closes others (apart.1 number)
      obtain ⟨taken, refused⟩ := of_text_token spelled ends
      rw [of_text_space blank, List.forall_mem_cons]
      by_cases finite : token.StaysFinite
      · rw [taken finite, Option.map_eq_some_iff]
        constructor
        · rintro ⟨later, readLater, rfl⟩
          obtain ⟨rfl, allFinite⟩ := (induction apart.2).1 readLater
          exact ⟨rfl, finite, allFinite⟩
        · rintro ⟨rfl, -, allFinite⟩
          exact ⟨tokens, (induction apart.2).2 ⟨rfl, allFinite⟩, rfl⟩
      · rw [refused finite]
        constructor
        · intro found
          cases found
        · exact fun both => absurd both.2.1 finite

end Token

end RhoFrontend.Json
