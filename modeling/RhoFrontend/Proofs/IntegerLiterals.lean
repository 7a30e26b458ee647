import RhoFrontend.Proofs.Lexing.Chunks

/-!
Integer literals denote numbers. A sign and digits, however many, are read as the number that the
digits spell by their places, or refused as a whole where it needs more than 64 bits. The printed
form of an integer is read as it wherever the text behind it starts with no further digit.
-/

namespace RhoFrontend

namespace Integer

/-- The number that digits spell by their places. Each place counts ten times as much as the one
behind it. -/
def placeValue : List Char → Nat
  | [] => 0
  | digit :: rest => (digit.toNat - '0'.toNat) * Nat.pow 10 rest.length + placeValue rest

/-- The number that a literal denotes. -/
def denoted (negative : Bool) (digits : List Char) : Int :=
  if negative then -(placeValue digits : Int) else placeValue digits

theorem of_digit_chars_eq (digits : List Char) (value : Nat) :
    Nat.ofDigitChars 10 digits value = value * Nat.pow 10 digits.length + placeValue digits := by
  induction digits generalizing value with
  | nil => simp [placeValue]
  | cons digit rest induction =>
      have shifted : 10 * value * Nat.pow 10 rest.length =
          value * Nat.pow 10 (rest.length + 1) := by
        rw [Nat.mul_comm 10 value, Nat.mul_assoc, Nat.mul_comm 10]
        rfl
      rw [Nat.ofDigitChars_cons, induction, placeValue, List.length_cons, Nat.add_mul, shifted,
        Nat.add_assoc]

theorem value_of_digits_eq (negative : Bool) (digits : List Char) :
    valueOfDigits negative digits = denoted negative digits := by
  have places := of_digit_chars_eq digits 0
  rw [Nat.zero_mul, Nat.zero_add] at places
  simp only [valueOfDigits, places, denoted]

/-- Sixty-four bits hold the number. The two ends of the range are no mirror images. -/
def Fits (value : Int) : Prop := -Int.pow 2 63 ≤ value ∧ value ≤ Int.pow 2 63 - 1

instance (value : Int) : Decidable (Fits value) := inferInstanceAs (Decidable (_ ∧ _))

theorem of_int_eq (value : Int) :
    ofInt? value = if Fits value then some (Int64.ofInt value) else none := by
  have low : Int64.minValue.toInt = -Int.pow 2 63 := by decide
  have high : Int64.maxValue.toInt = Int.pow 2 63 - 1 := by decide
  rw [ofInt?, low, high]
  rfl

end Integer

/-- A sign and digits are one piece, whatever number they spell. -/
theorem Piece.of_text_of_literal {negative : Bool} {sign digits : List Char}
    (signed : Token.Sign negative sign) (nonempty : digits ≠ [])
    (all : ∀ char ∈ digits, char.isDigit = true) :
    ofText (sign ++ digits) = [⟨Lexeme.ofDigits negative digits, sign ++ digits⟩] := by
  let piece : Piece := ⟨Lexeme.ofDigits negative digits, sign ++ digits⟩
  have reads : Rule.Reads .integer piece.text piece.lexeme :=
    Lexeme.reads_of_digits signed nonempty all
  have longest : LongestMatch (piece.text ++ []) piece := by
    rw [List.append_nil]
    apply LongestMatch.matched reads List.prefix_rfl
    · intro other longer lexeme otherReads inside
      exact inside.length_le
    · exact nofun
  have cut := of_text_of_longest_match longest
  rwa [List.append_nil, ofText] at cut

namespace SpannedToken

variable {options : Options} {negative : Bool} {sign digits : List Char}

theorem of_source_of_literal (signed : Token.Sign negative sign) (nonempty : digits ≠ [])
    (all : ∀ char ∈ digits, char.isDigit = true) :
    ofSource options (sign ++ digits) =
      ofPieces options [(⟨Lexeme.ofDigits negative digits, sign ++ digits⟩,
        ⟨0, byteLength (sign ++ digits)⟩)] := by
  rw [ofSource, Piece.of_text_of_literal signed nonempty all, Piece.withSpans, Piece.withSpans,
    Nat.zero_add]

theorem of_source_of_fitting (signed : Token.Sign negative sign) (nonempty : digits ≠ [])
    (all : ∀ char ∈ digits, char.isDigit = true)
    (fits : Integer.Fits (Integer.denoted negative digits)) :
    ∃ word : Int64, word.toInt = Integer.denoted negative digits ∧
      ofSource options (sign ++ digits) =
        .ok [⟨.integer word, ⟨0, byteLength (sign ++ digits)⟩⟩] := by
  have found := Integer.of_int_eq (Integer.denoted negative digits)
  rw [if_pos fits] at found
  have read : Lexeme.ofDigits negative digits =
      .token (.integer (Int64.ofInt (Integer.denoted negative digits))) := by
    rw [Lexeme.ofDigits, Integer.value_of_digits_eq, found]
  refine ⟨_, Integer.to_int_of_some found, ?_⟩
  rw [of_source_of_literal signed nonempty all, read]
  rfl

theorem of_source_of_beyond (signed : Token.Sign negative sign) (nonempty : digits ≠ [])
    (all : ∀ char ∈ digits, char.isDigit = true)
    (beyond : ¬ Integer.Fits (Integer.denoted negative digits)) :
    ofSource options (sign ++ digits) =
      .error ⟨.malformed .integerRange, ⟨0, byteLength (sign ++ digits)⟩,
        String.ofList (sign ++ digits)⟩ := by
  have refused : Lexeme.ofDigits negative digits = .malformed .integerRange := by
    rw [Lexeme.ofDigits, Integer.value_of_digits_eq, Integer.of_int_eq, if_neg beyond]
  rw [of_source_of_literal signed nonempty all, refused]
  rfl

end SpannedToken

/-! Punctuation comes apart from whatever is behind it, so it may stand right before an integer. An
integer takes digits only, so punctuation may stand right behind it. -/

namespace Punctuation

/-- Marks written one behind the other. -/
def run (marks : List Punctuation) : List Char := marks.flatMap fun each => each.spelling.toList

theorem pieces_of_run (marks : List Punctuation) (rest : List Char) :
    Piece.ofText (run marks ++ rest) =
      marks.map (fun each => ⟨.token (.punctuation each), each.spelling.toList⟩) ++
        Piece.ofText rest := by
  induction marks with
  | nil => rfl
  | cons first others induction =>
      have ends : (Token.mark first).EndsBefore (run others ++ rest) := fun _ _ => rfl
      have cut := Piece.of_text_of_spelled (Token.mark_reads_back first) ends
      rw [induction] at cut
      rw [run, List.flatMap_cons, List.append_assoc]
      exact cut

theorem chunk_of_run (options : Options) (marks : List Punctuation) :
    Chunk options (run marks) (marks.map Token.mark) := by
  induction marks with
  | nil => exact .of_trivia .none
  | cons first others induction => exact (Chunk.of_mark first).append induction

theorem no_digit_of_run (marks : List Punctuation) :
    ∀ char ∈ (run marks).head?, char.isDigit = false := by
  cases marks with
  | nil => exact nofun
  | cons first others =>
      intro char starts
      cases first <;> cases starts <;> rfl

end Punctuation

namespace SpannedToken

/-- Any punctuation may stand right before an integer and right behind it. -/
theorem of_source_of_integer (options : Options) (value : Int64)
    (before after : List Punctuation) :
    ∃ left right : List SpannedToken,
      left.map token = before.map Token.mark ∧ right.map token = after.map Token.mark ∧
        ofSource options
            (Punctuation.run before ++ (Integer.spelling value ++ Punctuation.run after)) =
          .ok (left ++ ⟨.integer value, ⟨byteLength (Punctuation.run before),
            byteLength (Punctuation.run before) + byteLength (Integer.spelling value)⟩⟩ ::
              right) := by
  obtain ⟨left, sameLeft, readLeft⟩ := Punctuation.chunk_of_run options before 0
  have chunk := Punctuation.chunk_of_run options after
  obtain ⟨right, sameRight, readRight⟩ := chunk.ending
    (byteLength (Punctuation.run before) + byteLength (Integer.spelling value))
  refine ⟨left, right, sameLeft, sameRight, ?_⟩
  have ends : (Token.integer value).EndsBefore (Punctuation.run after) :=
    Punctuation.no_digit_of_run after
  have behind : ofTextAt options (byteLength (Punctuation.run before))
      (Integer.spelling value ++ Punctuation.run after) =
        (ofTextAt options (byteLength (Punctuation.run before) +
          byteLength (Integer.spelling value)) (Punctuation.run after)).map (_ :: ·) :=
    of_text_at_spelled (Token.integer_reads_back value) ends
  have whole := readLeft (Integer.spelling value ++ Punctuation.run after)
  rw [Nat.zero_add, behind, readRight] at whole
  exact whole

end SpannedToken

/-- A sign or none and digits are read as the number that the digits spell by their places, if 64
bits hold it, and are one error as a whole if they do not. The printed form of an integer is read as
that integer, with any punctuation right before it and right behind it, and is a piece of its own
before every text that starts with no digit. -/
theorem integer_literals_denote_numbers (options : Options) :
    (∀ (negative : Bool) (sign digits : List Char), Token.Sign negative sign → digits ≠ [] →
      (∀ char ∈ digits, char.isDigit = true) →
        (Integer.Fits (Integer.denoted negative digits) →
          ∃ word : Int64, word.toInt = Integer.denoted negative digits ∧
            SpannedToken.ofSource options (sign ++ digits) =
              .ok [⟨.integer word, ⟨0, byteLength (sign ++ digits)⟩⟩]) ∧
        (¬ Integer.Fits (Integer.denoted negative digits) →
          SpannedToken.ofSource options (sign ++ digits) =
            .error ⟨.malformed .integerRange, ⟨0, byteLength (sign ++ digits)⟩,
              String.ofList (sign ++ digits)⟩)) ∧
      ∀ value : Int64, ∃ text, (ProcessTree.ground (.int value)).toSource = .ok text ∧
        (∀ before after : List Punctuation, ∃ left right : List SpannedToken,
          left.map SpannedToken.token = before.map Token.mark ∧
          right.map SpannedToken.token = after.map Token.mark ∧
          SpannedToken.ofSource options
              (Punctuation.run before ++ (text.toList ++ Punctuation.run after)) =
            .ok (left ++ ⟨.integer value, ⟨byteLength (Punctuation.run before),
              byteLength (Punctuation.run before) + byteLength text.toList⟩⟩ :: right)) ∧
        ∀ (before : List Punctuation) (rest : List Char),
          (∀ char ∈ rest.head?, char.isDigit = false) →
            Piece.ofText (Punctuation.run before ++ (text.toList ++ rest)) =
              before.map (fun each => ⟨.token (.punctuation each), each.spelling.toList⟩) ++
                ⟨.token (.integer value), text.toList⟩ :: Piece.ofText rest := by
  constructor
  · intro negative sign digits signed nonempty all
    exact ⟨SpannedToken.of_source_of_fitting signed nonempty all,
      SpannedToken.of_source_of_beyond signed nonempty all⟩
  · intro value
    refine ⟨String.ofList (Integer.spelling value), rfl, ?_⟩
    rw [String.toList_ofList]
    constructor
    · exact SpannedToken.of_source_of_integer options value
    · intro before rest noDigit
      have ends : (Token.integer value).EndsBefore rest := noDigit
      have cut : Piece.ofText (Integer.spelling value ++ rest) =
          ⟨.token (.integer value), Integer.spelling value⟩ :: Piece.ofText rest :=
        Piece.of_text_of_spelled (Token.integer_reads_back value) ends
      rw [Punctuation.pieces_of_run, cut]

/-- The lowest number has no positive counterpart, and leading zeros do not count. -/
theorem integer_literals_denote_numbers_at_lowest :
    (∃ word : Int64, word.toInt = -Int.pow 2 63 ∧
        SpannedToken.ofSource {} "-009223372036854775808".toList =
          .ok [⟨.integer word, ⟨0, 22⟩⟩]) ∧
      SpannedToken.ofSource {} "+009223372036854775808".toList =
        .error ⟨.malformed .integerRange, ⟨0, 22⟩, "+009223372036854775808"⟩ ∧
      ∃ left right : List SpannedToken,
        left.map SpannedToken.token = [.punctuation .atSign] ∧
        right.map SpannedToken.token = [.punctuation .bang] ∧
        SpannedToken.ofSource {} "@-9223372036854775808!".toList =
          .ok (left ++ ⟨.integer Int64.minValue, ⟨1, 21⟩⟩ :: right) := by
  obtain ⟨read, printed⟩ := integer_literals_denote_numbers {}
  have digits : ∀ char ∈ "009223372036854775808".toList, char.isDigit = true :=
    List.all_eq_true.1 (by decide)
  have nonempty : "009223372036854775808".toList ≠ [] := by decide
  refine ⟨?_, ?_, ?_⟩
  · exact (read true ['-'] _ .minus nonempty digits).1 (by decide)
  · exact (read false ['+'] _ .plus nonempty digits).2 (by decide)
  · obtain ⟨text, same, around, -⟩ := printed Int64.minValue
    have known : "-9223372036854775808" = text := by
      have spelled : (ProcessTree.ground (.int Int64.minValue)).toSource =
          .ok "-9223372036854775808" := rfl
      rw [spelled] at same
      exact Except.ok.inj same
    subst known
    exact around [.atSign] [.bang]

end RhoFrontend
