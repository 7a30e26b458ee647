import RhoFrontend.Proofs.Json.Lexing

/-!
What the reader takes for a token is a spelling of it, so a text that it takes apart is made of
spelled tokens and space.
-/

namespace RhoFrontend.Json

namespace StringLiteral

instance (value : Nat) (char : Char) : Decidable (IsHexDigit value char) :=
  inferInstanceAs (Decidable (_ ∧ _))

/-- The value of a digit is checked on the first characters, beyond which there are no digits. -/
theorem hex_digit_of_value {value : Nat} {char : Char}
    (read : Hexadecimal.digitValue? char = some value) : IsHexDigit value char := by
  have every : ∀ code < 128, ∀ value ∈ Hexadecimal.digitValue? (Char.ofNat code),
      IsHexDigit value (Char.ofNat code) := by decide
  have bound : char.toNat < 128 := by
    apply Nat.lt_of_not_le
    intro beyond
    have above (limit : Char) (low : limit.toNat < 128) : ¬ char ≤ limit := fun below =>
      Nat.not_lt.2 beyond (Nat.lt_of_le_of_lt (UInt32.le_iff_toNat_le.1 below) low)
    have noDigit : char.isDigit = false := by
      rw [Char.isDigit, Bool.and_eq_false_iff]
      exact .inr (decide_eq_false (above '9' (by decide)))
    simp [Hexadecimal.digitValue?, noDigit, above 'f' (by decide), above 'F' (by decide)] at read
  have found := every char.toNat bound value
  rw [Char.ofNat_toNat] at found
  exact found read

theorem value_from_cons {total unit : Nat} {char : Char} {rest : List Char}
    (read : Hexadecimal.valueFrom? total (char :: rest) = some unit) :
    ∃ value, IsHexDigit value char ∧
      Hexadecimal.valueFrom? (total * 16 + value) rest = some unit := by
  rw [Hexadecimal.valueFrom?] at read
  split at read
  · next value digit => exact ⟨value, hex_digit_of_value digit, read⟩
  · cases read

theorem code_unit_of_unit {unit : Nat} {text : List Char} (read : unit? text = some unit) :
    ∃ digits rest, text = digits ++ rest ∧ CodeUnit unit digits := by
  simp only [unit?, Hexadecimal.valueOfFirst?] at read
  split at read
  · next full =>
      obtain _ | ⟨first, _ | ⟨second, _ | ⟨third, _ | ⟨fourth, rest⟩⟩⟩⟩ := text
      case cons.cons.cons.cons =>
        obtain ⟨a, firstDigit, read⟩ := value_from_cons read
        obtain ⟨b, secondDigit, read⟩ := value_from_cons read
        obtain ⟨c, thirdDigit, read⟩ := value_from_cons read
        obtain ⟨d, fourthDigit, read⟩ := value_from_cons read
        cases read
        rw [Nat.zero_mul, Nat.zero_add]
        exact ⟨[first, second, third, fourth], rest, rfl,
          .digits firstDigit secondDigit thirdDigit fourthDigit⟩
      all_goals cases full
  · cases read

/-- What an escape adds to a spelled text: the characters of the escape, behind a backslash. -/
def Escapes (char : Char) (escape : List Char) : Prop :=
  ∀ content text, Spells content text → Spells (char :: content) ('\\' :: (escape ++ text))

theorem code_unit_lt {unit : Nat} {digits : List Char} (code : CodeUnit unit digits) :
    unit < 0x10000 := by
  obtain ⟨⟨_, _⟩, ⟨_, _⟩, ⟨_, _⟩, ⟨_, _⟩⟩ := code
  omega

theorem to_nat_of_nat {code : Nat} (valid : code.isValidChar) : (Char.ofNat code).toNat = code := by
  rw [Char.ofNat, dif_pos valid]
  rfl

theorem escapes_of_pair {char : Char} {high low : Nat} {first second : List Char}
    (highCode : CodeUnit high first) (lowCode : CodeUnit low second)
    (isHigh : isHighSurrogate high = true) (isLow : isLowSurrogate low = true)
    (value : Char.ofNat (0x10000 + (high - 0xD800) * 0x400 + (low - 0xDC00)) = char) :
    Escapes char ('u' :: (first ++ '\\' :: 'u' :: second)) := by
  simp only [isHighSurrogate, isLowSurrogate, Bool.and_eq_true, decide_eq_true_eq] at isHigh isLow
  have valid : (0x10000 + (high - 0xD800) * 0x400 + (low - 0xDC00)).isValidChar := by
    unfold Nat.isValidChar
    omega
  have code := to_nat_of_nat valid
  rw [value] at code
  intro content text spells
  have pair := Spells.pair highCode lowCode isHigh isLow code spells
  simpa using pair

theorem escapes_of_unit {unit : Nat} {digits : List Char} (code : CodeUnit unit digits)
    (notHigh : isHighSurrogate unit = false) (notLow : isLowSurrogate unit = false) :
    Escapes (Char.ofNat unit) ('u' :: digits) := by
  simp only [isHighSurrogate, isLowSurrogate, Bool.and_eq_false_iff, decide_eq_false_iff_not]
    at notHigh notLow
  have bound := code_unit_lt code
  have valid : unit.isValidChar := by
    unfold Nat.isValidChar
    omega
  have value := to_nat_of_nat valid
  exact fun _ _ spells => .unit (value.symm ▸ code) spells

theorem escapes_of_unicode {char : Char} {text : List Char} {length : Nat}
    (read : unicodeEscape? text = some (char, length)) :
    ∃ escape rest, text = escape ++ rest ∧ length = escape.length ∧
      Escapes char ('u' :: escape) := by
  simp only [unicodeEscape?, bind, Option.bind_eq_some_iff] at read
  obtain ⟨first, readFirst, read⟩ := read
  obtain ⟨digits, rest, rfl, code⟩ := code_unit_of_unit readFirst
  have afterDigits : (digits ++ rest).drop 4 = rest := by
    rw [← length_of_code_unit code, List.drop_left]
  rw [afterDigits] at read
  split at read
  · next high =>
      split at read
      · next after =>
          obtain ⟨second, readSecond, paired⟩ := Option.bind_eq_some_iff.1 read
          obtain ⟨lowDigits, rest, rfl, lowCode⟩ := code_unit_of_unit readSecond
          split at paired
          · next low =>
              obtain ⟨value, rfl⟩ := Prod.mk.inj (Option.some.inj paired)
              refine ⟨digits ++ '\\' :: 'u' :: lowDigits, rest, by simp, ?_,
                escapes_of_pair code lowCode high low value⟩
              simp [length_of_code_unit code, length_of_code_unit lowCode]
          · cases paired
      · cases read
  · next notHigh =>
      split at read
      · cases read
      · next notLow =>
          obtain ⟨rfl, rfl⟩ := Prod.mk.inj (Option.some.inj read)
          exact ⟨digits, rest, rfl, (length_of_code_unit code).symm,
            escapes_of_unit code (Bool.eq_false_iff.2 notHigh) (Bool.eq_false_iff.2 notLow)⟩

theorem escapes_of_escape {char : Char} {text : List Char} {length : Nat}
    (read : escape? text = some (char, length)) :
    ∃ escape rest, text = escape ++ rest ∧ length = escape.length ∧ Escapes char escape := by
  have ofLetter {letter : Char} {rest : List Char} (known : (letter, char) ∈ letterEscapes)
      (single : length = 1) :
      ∃ escape after, letter :: rest = escape ++ after ∧ length = escape.length ∧
        Escapes char escape :=
    ⟨[letter], rest, rfl, single, fun _ _ spells => .letter known spells⟩
  unfold escape? at read
  split at read
  case h_9 rest =>
    obtain ⟨⟨found, total⟩, unicode, same⟩ := Option.map_eq_some_iff.1 read
    cases same
    obtain ⟨escape, after, rfl, rfl, escapes⟩ := escapes_of_unicode unicode
    exact ⟨'u' :: escape, after, rfl, rfl, escapes⟩
  case h_10 => cases read
  all_goals
    cases read
    exact ofLetter (by decide) rfl

theorem spells_of_decode {text content : List Char} {total : Nat}
    (read : decode text = some (content, total)) :
    ∃ body rest, text = body ++ '"' :: rest ∧ total = body.length + 1 ∧ Spells content body := by
  induction text using decode.induct generalizing content total with
  | case1 =>
      rw [decode] at read
      cases read
  | case2 rest =>
      rw [decode, if_pos rfl] at read
      cases read
      exact ⟨[], rest, rfl, rfl, .nil⟩
  | case3 rest none notQuote =>
      rw [decode, if_neg notQuote, if_pos rfl, none] at read
      cases read
  | case4 rest meant length escaped notQuote induction =>
      rw [decode, if_neg notQuote, if_pos rfl, escaped] at read
      obtain ⟨⟨later, further⟩, decoded, same⟩ := Option.map_eq_some_iff.1 read
      obtain ⟨rfl, rfl⟩ := Prod.mk.inj same
      obtain ⟨escape, after, rfl, rfl, escapes⟩ := escapes_of_escape escaped
      rw [List.drop_left] at decoded induction
      obtain ⟨body, rest, rfl, rfl, spells⟩ := induction decoded
      refine ⟨'\\' :: (escape ++ body), rest, by simp, ?_, escapes later body spells⟩
      simp only [List.length_cons, List.length_append]
      omega
  | case5 char rest notQuote notBackslash control =>
      rw [decode, if_neg notQuote, if_neg notBackslash, if_pos control] at read
      cases read
  | case6 char rest notQuote notBackslash visible induction =>
      rw [decode, if_neg notQuote, if_neg notBackslash, if_neg visible] at read
      obtain ⟨⟨later, further⟩, decoded, same⟩ := Option.map_eq_some_iff.1 read
      obtain ⟨rfl, rfl⟩ := Prod.mk.inj same
      obtain ⟨body, rest, rfl, rfl, spells⟩ := induction decoded
      have plain := Spells.plain (Nat.not_lt.1 visible) notQuote notBackslash spells
      exact ⟨char :: body, rest, rfl, rfl, plain⟩

end StringLiteral

namespace NumberLiteral

theorem exponent_text_of_value {letter : Char} {text : List Char} {value : Int}
    (marked : letter = 'e' ∨ letter = 'E') (read : exponentValue? text = some value) :
    ExponentText (some value) (letter :: text) := by
  have ofDigits {negative : Bool} {sign digits : List Char}
      (signed : RhoFrontend.Token.Sign negative sign)
      (found : (if digits.isEmpty || !digits.all Char.isDigit then none
        else some (Integer.valueOfDigits negative digits)) = some value) :
      ExponentText (some value) (letter :: (sign ++ digits)) := by
    split at found
    · cases found
    · next numeral =>
        cases found
        simp only [Bool.or_eq_true, List.isEmpty_iff, Bool.not_eq_true', not_or,
          Bool.not_eq_false] at numeral
        exact .present marked signed numeral.1 (List.all_eq_true.1 numeral.2)
  simp only [exponentValue?] at read
  split at read
  · exact ofDigits .plus read
  · exact ofDigits .minus read
  · exact ofDigits .absent read

theorem exponent_text_of_exponent {text : List Char} {exponent : Option Int}
    (read : exponent? text = some exponent) : ExponentText exponent text := by
  unfold exponent? at read
  split at read
  · cases read
    exact .absent
  · obtain ⟨value, found, rfl⟩ := Option.map_eq_some_iff.1 read
    exact exponent_text_of_value (.inl rfl) found
  · obtain ⟨value, found, rfl⟩ := Option.map_eq_some_iff.1 read
    exact exponent_text_of_value (.inr rfl) found
  · cases read

theorem fraction_text_of_fraction {text digits rest : List Char}
    (read : fraction? text = some (digits, rest)) :
    ∃ fractionText, text = fractionText ++ rest ∧ FractionText digits fractionText := by
  unfold fraction? at read
  split at read
  · next text =>
      obtain ⟨inside, outside, rfl, taken, numeral, _⟩ := Lexeme.exists_span Char.isDigit text
      simp only [taken, List.drop_left] at read
      split at read
      · cases read
      · next nonempty =>
          cases read
          exact ⟨'.' :: digits, rfl, .present (by simpa using nonempty) numeral⟩
  · cases read
    exact ⟨[], rfl, .absent⟩

theorem is_whole_of_digits {digits : List Char} (numeral : ∀ char ∈ digits, char.isDigit = true)
    (accepted : ¬ (digits.isEmpty || (digits.head? == some '0' && digits.length > 1)) = true) :
    IsWhole digits := by
  simp only [Bool.or_eq_true, List.isEmpty_iff, Bool.and_eq_true, beq_iff_eq, decide_eq_true_eq,
    not_or, not_and, Nat.not_lt] at accepted
  refine ⟨accepted.1, numeral, ?_⟩
  rintro rest rfl
  have alone := accepted.2 rfl
  exact List.length_eq_zero_iff.1 (Nat.le_zero.1 (Nat.le_of_succ_le_succ alone))

theorem spells_of_parts {negative : Bool} {magnitude fraction after : List Char}
    {exponent : Option Int}
    (accepted : ¬ ((magnitude.takeWhile Char.isDigit).isEmpty ||
      ((magnitude.takeWhile Char.isDigit).head? == some '0' &&
        (magnitude.takeWhile Char.isDigit).length > 1)) = true)
    (fractionFound : fraction? (magnitude.drop (magnitude.takeWhile Char.isDigit).length) =
      some (fraction, after))
    (exponentFound : exponent? after = some exponent) :
    Spells ⟨negative, magnitude.takeWhile Char.isDigit, fraction, exponent⟩
      ((if negative then ['-'] else []) ++ magnitude) := by
  obtain ⟨whole, rest, rfl, taken, numeral, _⟩ := Lexeme.exists_span Char.isDigit magnitude
  rw [taken] at accepted fractionFound ⊢
  rw [List.drop_left] at fractionFound
  obtain ⟨fractionText, rfl, hasFraction⟩ := fraction_text_of_fraction fractionFound
  exact .parts (is_whole_of_digits numeral accepted) hasFraction
    (exponent_text_of_exponent exponentFound)

theorem spells_of_text {text : List Char} {literal : NumberLiteral}
    (read : ofText? text = some literal) : literal.Spells text := by
  simp only [ofText?] at read
  split at read
  all_goals
    split at read
    · cases read
    · next accepted =>
        split at read
        · cases read
        · next fraction after fractionFound =>
            obtain ⟨exponent, exponentFound, rfl⟩ := Option.map_eq_some_iff.1 read
            exact spells_of_parts accepted fractionFound exponentFound

end NumberLiteral

namespace Token

theorem spelled_of_number {text : List Char} {token : Token} {length : Nat}
    (read : number? text = some (token, length)) :
    ∃ taken rest, text = taken ++ rest ∧ length = taken.length ∧ token.Spelled taken := by
  obtain ⟨taken, rest, rfl, same, _⟩ := Lexeme.exists_span NumberLiteral.isPart text
  simp only [number?, same] at read
  split at read
  · cases read
  · next literal found =>
      have spells := NumberLiteral.spells_of_text found
      split at read
      · split at read
        · next value isInteger =>
            cases read
            exact ⟨taken, rest, rfl, rfl,
              .integer spells (NumberLiteral.integer_eq_some_iff.1 isInteger)⟩
        · next noInteger =>
            cases read
            refine ⟨taken, rest, rfl, rfl, .decimal spells fun value isInteger => ?_⟩
            rw [NumberLiteral.integer_eq_some_iff.2 isInteger] at noInteger
            cases noInteger
      · cases read

theorem spelled_of_word {word text : List Char} {known token : Token} {length : Nat}
    (spelled : known.Spelled word) (read : word? word known text = some (token, length)) :
    ∃ taken rest, text = taken ++ rest ∧ length = taken.length ∧ token.Spelled taken := by
  unfold word? at read
  split at read
  · next starts =>
      cases read
      obtain ⟨rest, rfl⟩ := List.isPrefixOf_iff_prefix.1 starts
      exact ⟨word, rest, rfl, rfl, spelled⟩
  · cases read

theorem spelled_of_string {text : List Char} {token : Token} {length : Nat}
    (read : (StringLiteral.decode text).map (fun (content, length) =>
      (Token.string (String.ofList content), length + 1)) = some (token, length)) :
    ∃ taken rest, '"' :: text = taken ++ rest ∧ length = taken.length ∧ token.Spelled taken := by
  obtain ⟨⟨content, total⟩, decoded, same⟩ := Option.map_eq_some_iff.1 read
  obtain ⟨rfl, rfl⟩ := Prod.mk.inj same
  obtain ⟨body, rest, rfl, rfl, spells⟩ := StringLiteral.spells_of_decode decoded
  refine ⟨'"' :: (body ++ ['"']), rest, by simp, by simp, .string ?_⟩
  rwa [String.toList_ofList]

/-- What the reader takes for a token is a spelling of the token. -/
theorem spelled_of_next {first : Char} {rest : List Char} {token : Token} {length : Nat}
    (read : next? first rest = some (token, length)) :
    ∃ taken after, first :: rest = taken ++ after ∧ length = taken.length ∧
      token.Spelled taken := by
  have ofMark {mark : Char} {known : Token} (spelled : known.Spelled [mark])
      (found : some (known, 1) = some (token, length)) :
      ∃ taken after, mark :: rest = taken ++ after ∧ length = taken.length ∧
        token.Spelled taken := by
    cases found
    exact ⟨[mark], rest, rfl, rfl, spelled⟩
  unfold next? at read
  split at read
  · exact ofMark .openBracket read
  · exact ofMark .closeBracket read
  · exact ofMark .openBrace read
  · exact ofMark .closeBrace read
  · exact ofMark .comma read
  · exact ofMark .colon read
  · exact spelled_of_word .null read
  · exact spelled_of_word .trueValue read
  · exact spelled_of_word .falseValue read
  · exact spelled_of_string read
  · exact spelled_of_number read

theorem nonempty_of_spelled {token : Token} {text : List Char} (spelled : token.Spelled text) :
    ∃ first body, text = first :: body := by
  cases spelled with
  | integer spells | decimal spells =>
      obtain ⟨first, body, same, _⟩ := NumberLiteral.head_of_spelled spells
      exact ⟨first, body, same⟩
  | _ => exact ⟨_, _, rfl⟩

theorem spaced_of_text {text : List Char} {tokens : List Token}
    (read : ofText? text = some tokens) : Spaced tokens text := by
  induction text using ofText?.induct generalizing tokens with
  | case1 =>
      rw [ofText?] at read
      cases read
      exact .nil (List.forall_mem_nil _)
  | case2 first rest space induction =>
      rw [ofText?, if_pos space] at read
      have blank : Blank [first] := by
        simp only [isSpace, Bool.or_eq_true, beq_iff_eq, or_assoc] at space
        simpa [Blank] using space
      exact spaced_append blank (induction read)
  | case3 first rest notSpace none =>
      rw [ofText?, if_neg notSpace, none] at read
      cases read
  | case4 first rest notSpace token length found induction =>
      rw [ofText?, if_neg notSpace, found] at read
      obtain ⟨later, readLater, rfl⟩ := Option.map_eq_some_iff.1 read
      obtain ⟨taken, after, same, rfl, spelled⟩ := spelled_of_next found
      obtain ⟨head, body, rfl⟩ := nonempty_of_spelled spelled
      rw [List.cons_append] at same
      obtain ⟨rfl, rfl⟩ := List.cons.inj same
      rw [List.length_cons, Nat.add_sub_cancel, List.drop_left] at readLater induction
      exact spaced_cons spelled (induction readLater)

end Token

end RhoFrontend.Json
