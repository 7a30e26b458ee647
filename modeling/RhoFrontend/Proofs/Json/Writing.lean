import RhoFrontend.Json.Layout
import RhoFrontend.Proofs.Json.Lexing

/-!
Written documents are strict JSON. Every token is written in one of its spellings, and the two
layouts put nothing but space between tokens.
-/

namespace RhoFrontend.Json

namespace StringLiteral

theorem letter_of_short_escape {char letter : Char} (short : shortEscape? char = some letter) :
    (letter, char) ∈ letterEscapes := by
  unfold shortEscape? at short
  split at short <;> cases short <;> decide

theorem code_unit_of_control {char : Char} (control : char.toNat < 0x20) :
    CodeUnit char.toNat ['0', '0', hexDigit (char.toNat / 16), hexDigit (char.toNat % 16)] := by
  have zero : IsHexDigit 0 '0' := ⟨by decide, .inl rfl⟩
  have high : IsHexDigit (char.toNat / 16) (hexDigit (char.toNat / 16)) := ⟨by omega, .inl rfl⟩
  have low : IsHexDigit (char.toNat % 16) (hexDigit (char.toNat % 16)) := ⟨by omega, .inl rfl⟩
  have code := CodeUnit.digits zero zero high low
  have value : ((0 * 16 + 0) * 16 + char.toNat / 16) * 16 + char.toNat % 16 = char.toNat := by omega
  rwa [value] at code

theorem spells_encode (content : List Char) : Spells content (encode content) := by
  induction content with
  | nil => exact .nil
  | cons char content induction =>
      rw [encode, List.flatMap_cons, ← encode, encodeChar]
      cases short : shortEscape? char with
      | some letter => exact .letter (letter_of_short_escape short) induction
      | none =>
          have notQuote : char ≠ '"' := by
            rintro rfl
            cases short
          have notBackslash : char ≠ '\\' := by
            rintro rfl
            cases short
          by_cases control : char.toNat < 0x20
          · simp only [if_pos control]
            exact .unit (code_unit_of_control control) induction
          · simp only [if_neg control]
            exact .plain (Nat.not_lt.1 control) notQuote notBackslash induction

end StringLiteral

namespace NumberLiteral

/-- The shortest decimal spelling starts with a zero only for zero itself. -/
theorem zero_of_head_digit (number : Nat) (zero : (Nat.toDigits 10 number).head? = some '0') :
    number = 0 := by
  induction number using Nat.strongRecOn with
  | ind number induction =>
      by_cases single : number < 10
      · have every : ∀ digit < 10, Nat.digitChar digit = '0' → digit = 0 := by decide
        rw [Nat.toDigits_of_lt_base single] at zero
        exact every number single (Option.some.inj zero)
      · have nonempty : Nat.toDigits 10 (number / 10) ≠ [] := Nat.toDigits_ne_nil
        obtain ⟨first, rest, leading⟩ := List.exists_cons_of_ne_nil nonempty
        rw [Nat.toDigits_of_base_le (by decide) (by omega), leading] at zero
        have smaller := induction (number / 10) (by omega) (leading ▸ zero)
        omega

theorem is_whole_digits (number : Nat) : IsWhole (Nat.toDigits 10 number) where
  nonempty := Nat.toDigits_ne_nil
  all _ member := Nat.isDigit_of_mem_toDigits (by decide) (by decide) member
  noLeadingZero rest starts := by
    have zero := zero_of_head_digit number (by rw [starts, List.head?_cons])
    subst zero
    exact (List.cons.inj starts).2.symm

/-- The literal that an integer is written as. -/
def ofInteger (value : Int) : NumberLiteral :=
  ⟨decide (value < 0), Nat.toDigits 10 value.natAbs, [], none⟩

theorem of_integer_spells (value : Int) :
    (ofInteger value).Spells (Integer.digitsOfValue value) := by
  have spells : (ofInteger value).Spells _ := .parts (is_whole_digits value.natAbs) .absent .absent
  rw [List.append_nil, List.append_nil] at spells
  rw [Integer.digitsOfValue]
  by_cases negative : value < 0
  · rw [if_pos negative]
    rwa [decide_eq_true negative] at spells
  · rw [if_neg negative]
    rwa [decide_eq_false negative] at spells

theorem of_integer_is_integer (value : Int) : (ofInteger value).IsInteger value where
  noFraction := rfl
  noExponent := rfl
  denotes := by
    simp only [ofInteger, Integer.valueOfDigits, Nat.ofDigitChars_ten_toDigits, decide_eq_true_eq]
    split <;> omega
  notNegativeZero negative := by
    have below : value < 0 := of_decide_eq_true negative
    omega

theorem le_of_digit_chars (digits : List Char) (value : Nat) :
    value ≤ Nat.ofDigitChars 10 digits value := by
  induction digits generalizing value with
  | nil => exact Nat.le_refl value
  | cons digit digits induction =>
      rw [Nat.ofDigitChars_cons]
      have further := induction (10 * value + (digit.toNat - '0'.toNat))
      omega

/-- No digit is left over while the number fits a significand. -/
theorem dropped_of_fits {digits : List Char} {value : Nat}
    (fits : Nat.ofDigitChars 10 digits value ≤ significandLimit) :
    (significand value digits).2 = 0 := by
  induction digits generalizing value with
  | nil => rfl
  | cons digit digits induction =>
      rw [Nat.ofDigitChars_cons, Nat.mul_comm] at fits
      have next := Nat.le_trans (le_of_digit_chars digits _) fits
      rw [significand]
      exact (congrArg Prod.snd (if_pos next)).trans (induction fits)

theorem of_integer_rounds_to_finite {value : Int} (fits : value.natAbs ≤ significandLimit) :
    (ofInteger value).roundsToFinite = true := by
  have dropped : (significand 0 (Nat.toDigits 10 value.natAbs)).2 = 0 :=
    dropped_of_fits (Nat.ofDigitChars_ten_toDigits ▸ fits)
  simp [roundsToFinite, ofInteger, dropped]

end NumberLiteral

/-- The documents that are written as strict JSON and have only numbers that stay finite: integers
that a significand holds, and numbers kept as they were spelled. -/
inductive Writable : Json → Prop
  | null : Writable .null
  | bool (value : Bool) : Writable (.bool value)
  | integer {value : Int} (fits : value.natAbs ≤ NumberLiteral.significandLimit) :
      Writable (.integer value)
  | decimal {literal : NumberLiteral} {text : String} (spells : literal.Spells text.toList)
      (finite : literal.roundsToFinite = true) (noInteger : ∀ value, ¬ literal.IsInteger value) :
      Writable (.decimal text)
  | string (content : String) : Writable (.string content)
  | array {items : List Json} (all : ∀ item ∈ items, Writable item) : Writable (.array items)
  | object {fields : List Field} (all : ∀ field ∈ fields, Writable field.value) :
      Writable (.object fields)

/-- A literal that spells the number of a token is the one that the token is written as. -/
theorem numbers_finite_of_writable {document : Json} (writable : Writable document) :
    document.NumbersFinite := by
  intro literal number
  induction number with
  | @integer value text spells isInteger =>
      cases writable with
      | integer fits =>
          have whole := NumberLiteral.whole_of_spelled spells
          have written := NumberLiteral.is_whole_digits value.natAbs
          have isWritten := NumberLiteral.of_integer_is_integer value
          rw [NumberLiteral.eq_of_is_integer whole written isInteger isWritten]
          exact NumberLiteral.of_integer_rounds_to_finite fits
  | decimal spells =>
      cases writable with
      | decimal written finite => rwa [spells.unique written]
  | item member _ induction =>
      cases writable with
      | array all => exact induction (all _ member)
  | field member _ induction =>
      cases writable with
      | object all => exact induction (all _ member)

mutual

theorem spelled_tokens (document : Json) (writable : Writable document) :
    ∀ token ∈ document.tokens, token.Spelled token.spelling := by
  match document, writable with
  | _, .null => exact List.forall_mem_singleton.2 .null
  | _, .bool true => exact List.forall_mem_singleton.2 .trueValue
  | _, .bool false => exact List.forall_mem_singleton.2 .falseValue
  | .integer value, .integer fits =>
      exact List.forall_mem_singleton.2 (.integer (NumberLiteral.of_integer_spells value)
        (NumberLiteral.of_integer_is_integer value))
  | _, .decimal spells _ noInteger =>
      have spelled := Token.Spelled.decimal spells noInteger
      rw [String.ofList_toList] at spelled
      exact List.forall_mem_singleton.2 spelled
  | _, .string content =>
      exact List.forall_mem_singleton.2 (.string (StringLiteral.spells_encode content.toList))
  | .array [], _ =>
      exact List.forall_mem_cons.2 ⟨.openBracket, List.forall_mem_singleton.2 .closeBracket⟩
  | .array (item :: items), .array all =>
      have ⟨first, others⟩ := List.forall_mem_cons.1 all
      exact List.forall_mem_cons.2 ⟨.openBracket,
        List.forall_mem_append.2 ⟨spelled_tokens item first, spelled_later_items items others⟩⟩
  | .object [], _ =>
      exact List.forall_mem_cons.2 ⟨.openBrace, List.forall_mem_singleton.2 .closeBrace⟩
  | .object (⟨name, value⟩ :: fields), .object all =>
      have ⟨first, others⟩ := List.forall_mem_cons.1 all
      have named := Token.Spelled.string (StringLiteral.spells_encode name.toList)
      exact List.forall_mem_cons.2 ⟨.openBrace, List.forall_mem_cons.2 ⟨named,
        List.forall_mem_cons.2 ⟨.colon,
        List.forall_mem_append.2 ⟨spelled_tokens value first, spelled_later_fields fields others⟩⟩⟩⟩

theorem spelled_later_items (items : List Json) (writable : ∀ item ∈ items, Writable item) :
    ∀ token ∈ Json.laterItems items, token.Spelled token.spelling := by
  match items with
  | [] => exact List.forall_mem_singleton.2 .closeBracket
  | item :: items =>
      have ⟨first, others⟩ := List.forall_mem_cons.1 writable
      exact List.forall_mem_cons.2 ⟨.comma,
        List.forall_mem_append.2 ⟨spelled_tokens item first, spelled_later_items items others⟩⟩

theorem spelled_later_fields (fields : List Field)
    (writable : ∀ field ∈ fields, Writable field.value) :
    ∀ token ∈ Json.laterFields fields, token.Spelled token.spelling := by
  match fields with
  | [] => exact List.forall_mem_singleton.2 .closeBrace
  | ⟨name, value⟩ :: fields =>
      have ⟨first, others⟩ := List.forall_mem_cons.1 writable
      have named := Token.Spelled.string (StringLiteral.spells_encode name.toList)
      exact List.forall_mem_cons.2 ⟨.comma, List.forall_mem_cons.2 ⟨named,
        List.forall_mem_cons.2 ⟨.colon,
        List.forall_mem_append.2 ⟨spelled_tokens value first, spelled_later_fields fields others⟩⟩⟩⟩

end

namespace Token

theorem spaced_spellings {tokens : List Token}
    (spelled : ∀ token ∈ tokens, token.Spelled token.spelling) :
    Spaced tokens (tokens.flatMap spelling) := by
  induction tokens with
  | nil => exact .nil blank_nil
  | cons token tokens induction =>
      have ⟨first, others⟩ := List.forall_mem_cons.1 spelled
      exact spaced_cons first (induction others)

end Token

namespace Layout

theorem blank_newline (depth : Nat) : Token.Blank (newline depth) := by
  intro char member
  rcases List.mem_cons.1 member with rfl | spaces
  · decide
  · rw [List.eq_of_mem_replicate spaces]
    decide

theorem blank_gap (depth : Nat) (left right : Token) : Token.Blank (gap depth left right) := by
  have oneSpace : Token.Blank [' '] := by
    intro char member
    rw [List.mem_singleton.1 member]
    decide
  unfold gap
  split
  · exact Token.blank_nil
  · split
    · exact blank_newline (depth - 1)
    · split
      · exact blank_newline depth
      · split
        · exact blank_newline depth
        · exact oneSpace
        · exact Token.blank_nil

theorem spaced_indented {tokens : List Token} (depth : Nat)
    (spelled : ∀ token ∈ tokens, token.Spelled token.spelling) :
    Token.Spaced tokens (indented depth tokens) := by
  induction tokens generalizing depth with
  | nil => exact .nil Token.blank_nil
  | cons left rest induction =>
      have ⟨first, others⟩ := List.forall_mem_cons.1 spelled
      cases rest with
      | nil =>
          have alone := Token.spaced_cons first (.nil Token.blank_nil)
          rwa [List.append_nil] at alone
      | cons right rest =>
          rw [indented, List.append_assoc]
          exact Token.spaced_cons first
            (Token.spaced_append (blank_gap _ left right) (induction _ others))

end Layout

theorem written_as_compact {document : Json} (writable : Writable document) :
    document.WrittenAs document.compact :=
  Token.spaced_spellings (spelled_tokens document writable)

theorem written_as_pretty {document : Json} (writable : Writable document) :
    document.WrittenAs document.pretty :=
  Layout.spaced_indented 0 (spelled_tokens document writable)

end RhoFrontend.Json
