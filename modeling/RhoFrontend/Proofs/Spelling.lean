import RhoFrontend.Token.Lexeme

/-!
The texts that tokens are read from, rule by rule, and what longest match makes of them: a spelled
token is cut off whole unless the text goes on with a character that it would take as well.
-/

namespace RhoFrontend

namespace Token

/-- The sign in front of the digits of an integer, and whether it negates them. -/
inductive Sign : Bool → List Char → Prop
  | absent : Sign false []
  | plus : Sign false ['+']
  | minus : Sign true ['-']

/-- The rules of tokens. A text can spell at most one token, but a token can have several
spellings: integers may have leading zeros and a plus sign. -/
inductive Spelled : Token → List Char → Prop
  | word {first : Char} {rest : List Char} (starts : isNameStart first = true)
      (parts : ∀ char ∈ rest, isNamePart char = true) :
      Spelled (Lexeme.ofWord (first :: rest)) (first :: rest)
  | integer {negative : Bool} {sign digits : List Char} {value : Int64}
      (signed : Sign negative sign) (nonempty : digits ≠ [])
      (all : ∀ char ∈ digits, char.isDigit = true)
      (fits : Integer.ofInt? (Integer.valueOfDigits negative digits) = some value) :
      Spelled (.integer value) (sign ++ digits)
  | string {content : List Char} (unquoted : '"' ∉ content) :
      Spelled (.string (String.ofList content)) ('"' :: (content ++ ['"']))
  | uri {content : List Char} (unquoted : '\x60' ∉ content) :
      Spelled (.uri (String.ofList content)) ('\x60' :: (content ++ ['\x60']))
  | arrow : Spelled (.punctuation .leftArrow) ['<', '-']
  | single {char : Char} {mark : Punctuation} (known : Punctuation.ofChar? char = some mark) :
      Spelled (.punctuation mark) [char]

/-- The characters that would still belong to the token if they came right after it. -/
def takes : Token → Char → Bool
  | .keyword _ | .identifier _ => isNamePart
  | .integer _ => Char.isDigit
  | .string _ | .uri _ | .punctuation _ => fun _ => false

/-- The text does not start with a character that the token would take. -/
def EndsBefore (token : Token) (text : List Char) : Prop :=
  ∀ char ∈ text.head?, token.takes char = false

theorem text_of_spelled_identifier {name : String} {text : List Char}
    (spelled : Spelled (.identifier name) text) : text = name.toList := by
  generalize shape : Token.identifier name = token at spelled
  cases spelled with
  | word starts parts =>
      unfold Lexeme.ofWord at shape
      split at shape
      · cases shape
      · cases shape
        exact String.toList_ofList.symm
  | _ => cases shape

theorem takes_of_word (word : List Char) : (Lexeme.ofWord word).takes = isNamePart := by
  unfold Lexeme.ofWord
  split <;> rfl

end Token

namespace Lexeme

theorem take_while_append {holds : Char → Bool} {body rest : List Char}
    (inside : ∀ char ∈ body, holds char = true)
    (outside : ∀ char ∈ rest.head?, holds char = false) :
    (body ++ rest).takeWhile holds = body := by
  rw [List.takeWhile_append_of_pos inside]
  cases rest with
  | nil => simp
  | cons next rest =>
      have stops := outside next rfl
      simp [stops]

theorem delimited_append {delimiter : Char} {token : String → Token} {content rest : List Char}
    (unquoted : delimiter ∉ content) :
    delimited delimiter token (content ++ delimiter :: rest) =
      ⟨.token (token (String.ofList content)), content.length + 1⟩ := by
  have found : (content ++ delimiter :: rest).takeWhile (· != delimiter) = content := by
    apply take_while_append
    · intro char member
      rw [bne_iff_ne]
      rintro rfl
      exact unquoted member
    · simp
  simp [delimited, found]

theorem after_sign_append {negative : Bool} {digits rest : List Char} (nonempty : digits ≠ [])
    (all : ∀ char ∈ digits, char.isDigit = true)
    (ends : ∀ char ∈ rest.head?, char.isDigit = false) :
    afterSign negative (digits ++ rest) = ⟨ofDigits negative digits, digits.length⟩ := by
  simp [afterSign, take_while_append all ends, nonempty]

private theorem blank_cases {char : Char} (blank : isBlank char = true) :
    isNameStart char = false ∧ char.isDigit = false := by
  simp only [isBlank, Bool.or_eq_true, beq_iff_eq] at blank
  rcases blank with (((rfl | rfl) | rfl) | rfl) | rfl <;> decide

theorem not_name_start_of_digit {char : Char} (digit : char.isDigit = true) :
    isNameStart char = false := by
  have low : 48 ≤ char.toNat := (Char.isDigit_iff_toNat.1 digit).1
  have high : char.toNat ≤ 57 := (Char.isDigit_iff_toNat.1 digit).2
  have ten : char.toNat = 48 ∨ char.toNat = 49 ∨ char.toNat = 50 ∨ char.toNat = 51 ∨
      char.toNat = 52 ∨ char.toNat = 53 ∨ char.toNat = 54 ∨ char.toNat = 55 ∨
        char.toNat = 56 ∨ char.toNat = 57 := by omega
  rw [← Char.ofNat_toNat char]
  rcases ten with code | code | code | code | code | code | code | code | code | code <;>
    rw [code] <;> decide

theorem not_blank_of_name_start {char : Char} (starts : isNameStart char = true) :
    isBlank char = false := by
  cases blank : isBlank char with
  | false => rfl
  | true => rw [(blank_cases blank).1] at starts; cases starts

theorem not_blank_of_digit {char : Char} (digit : char.isDigit = true) :
    isBlank char = false := by
  cases blank : isBlank char with
  | false => rfl
  | true => rw [(blank_cases blank).2] at digit; cases digit

theorem next_of_name_start {first : Char} (starts : isNameStart first = true)
    (rest : List Char) : next first rest =
      ⟨.token (ofWord (first :: rest.takeWhile isNamePart)),
        (rest.takeWhile isNamePart).length⟩ := by
  simp [next, not_blank_of_name_start starts, starts]

theorem next_of_digit {first : Char} (digit : first.isDigit = true) (rest : List Char) :
    next first rest =
      ⟨ofDigits false (first :: rest.takeWhile Char.isDigit),
        (rest.takeWhile Char.isDigit).length⟩ := by
  simp [next, not_blank_of_digit digit, not_name_start_of_digit digit, digit]

/-- A rule that spells a token says what the reader finds there, whatever comes after. -/
theorem exists_next_of_spelled {token : Token} {text rest : List Char}
    (spelled : token.Spelled text) (ends : token.EndsBefore rest) :
    ∃ first body, text = first :: body ∧ isBlank first = false ∧
      next first (body ++ rest) = ⟨.token token, body.length⟩ := by
  cases spelled with
  | @word first body starts parts =>
      rw [Token.EndsBefore, Token.takes_of_word] at ends
      refine ⟨first, body, rfl, not_blank_of_name_start starts, ?_⟩
      rw [next_of_name_start starts, take_while_append parts ends]
  | @integer negative sign digits value signed nonempty all fits =>
      have read : ofDigits negative digits = .token (.integer value) := by
        rw [ofDigits, fits]
      cases signed with
      | absent =>
          obtain ⟨first, body, rfl⟩ := List.exists_cons_of_ne_nil nonempty
          obtain ⟨digit, further⟩ := List.forall_mem_cons.1 all
          refine ⟨first, body, rfl, not_blank_of_digit digit, ?_⟩
          rw [next_of_digit digit, take_while_append further ends, read]
      | plus =>
          refine ⟨'+', digits, rfl, rfl, ?_⟩
          rw [← read]
          exact after_sign_append nonempty all ends
      | minus =>
          refine ⟨'-', digits, rfl, rfl, ?_⟩
          rw [← read]
          exact after_sign_append nonempty all ends
  | @string content unquoted =>
      refine ⟨'"', content ++ ['"'], rfl, rfl, ?_⟩
      rw [List.append_assoc, List.length_append]
      exact delimited_append unquoted
  | @uri content unquoted =>
      refine ⟨'\x60', content ++ ['\x60'], rfl, rfl, ?_⟩
      rw [List.append_assoc, List.length_append]
      exact delimited_append unquoted
  | arrow => exact ⟨'<', ['-'], rfl, rfl, rfl⟩
  | @single char mark known =>
      unfold Punctuation.ofChar? at known
      split at known <;> cases known <;> exact ⟨_, [], rfl, rfl, rfl⟩

theorem exists_span (holds : Char → Bool) (text : List Char) :
    ∃ inside outside, text = inside ++ outside ∧ text.takeWhile holds = inside ∧
      (∀ char ∈ inside, holds char = true) ∧ ∀ char ∈ outside.head?, holds char = false := by
  refine ⟨text.takeWhile holds, text.dropWhile holds, ?_, rfl, ?_, ?_⟩
  · exact List.takeWhile_append_dropWhile.symm
  · intro char member
    exact List.all_eq_true.1 List.all_takeWhile char member
  · intro char first
    have stops := List.head?_dropWhile_not holds text
    rw [first] at stops
    simpa using stops

private theorem token_of_delimited {delimiter : Char} {spelled : String → Token} {token : Token}
    {rest : List Char} {further : Nat}
    (found : delimited delimiter spelled rest = ⟨.token token, further⟩) :
    ∃ content after, rest = content ++ delimiter :: after ∧ delimiter ∉ content ∧
      token = spelled (String.ofList content) ∧ further = content.length + 1 := by
  obtain ⟨content, after, rfl, taken, inside, outside⟩ := exists_span (· != delimiter) rest
  have unquoted : delimiter ∉ content := by
    intro member
    simpa using inside delimiter member
  cases after with
  | nil =>
      rw [List.append_nil] at taken found
      simp [delimited, taken] at found
  | cons next after =>
      have closes : next = delimiter := by simpa using outside next rfl
      subst closes
      rw [delimited_append unquoted] at found
      cases found
      exact ⟨content, after, rfl, unquoted, rfl, rfl⟩

private theorem token_of_digits {negative : Bool} {digits : List Char} {token : Token}
    (found : ofDigits negative digits = .token token) :
    ∃ value, token = .integer value ∧
      Integer.ofInt? (Integer.valueOfDigits negative digits) = some value := by
  unfold ofDigits at found
  split at found
  · next value fits =>
      cases found
      exact ⟨value, rfl, fits⟩
  · cases found

private theorem token_of_after_sign {negative : Bool} {token : Token} {rest : List Char}
    {further : Nat} (found : afterSign negative rest = ⟨.token token, further⟩) :
    ∃ digits after, rest = digits ++ after ∧ further = digits.length ∧
      token.EndsBefore after ∧
        ∀ sign, Token.Sign negative sign → token.Spelled (sign ++ digits) := by
  obtain ⟨digits, after, rfl, taken, inside, outside⟩ := exists_span Char.isDigit rest
  simp only [afterSign, taken] at found
  split at found
  · cases found
  · next nonempty =>
      injection found with read length
      obtain ⟨value, rfl, fits⟩ := token_of_digits read
      refine ⟨digits, after, rfl, length.symm, outside, ?_⟩
      intro sign signed
      exact .integer signed (by simpa using nonempty) inside fits

/-- What the reader takes for a token is spelled by a rule, and nothing after it extends it. -/
theorem spelled_of_next {token : Token} {first : Char} {rest : List Char} {further : Nat}
    (found : next first rest = ⟨.token token, further⟩) :
    ∃ body after, rest = body ++ after ∧ further = body.length ∧
      token.Spelled (first :: body) ∧ token.EndsBefore after := by
  unfold next at found
  split at found
  · cases found
  split at found
  · next starts =>
      obtain ⟨body, after, rfl, taken, inside, outside⟩ := exists_span isNamePart rest
      simp only [taken, List.length_cons, Nat.add_sub_cancel] at found
      cases found
      refine ⟨body, after, rfl, rfl, .word starts inside, ?_⟩
      rw [Token.EndsBefore, Token.takes_of_word]
      exact outside
  split at found
  · next digit =>
      obtain ⟨body, after, rfl, taken, inside, outside⟩ := exists_span Char.isDigit rest
      simp only [taken, List.length_cons, Nat.add_sub_cancel] at found
      injection found with read length
      obtain ⟨value, rfl, fits⟩ := token_of_digits read
      refine ⟨body, after, rfl, length.symm, ?_, outside⟩
      exact .integer .absent (List.cons_ne_nil _ _) (List.forall_mem_cons.2 ⟨digit, inside⟩) fits
  split at found
  -- A slash starts trivia or nothing, never a token.
  · unfold afterSlash at found
    split at found
    · cases found
    · split at found <;> cases found
    · cases found
  · obtain ⟨digits, after, same, length, ends, spelled⟩ := token_of_after_sign found
    exact ⟨digits, after, same, length, spelled _ .plus, ends⟩
  · obtain ⟨digits, after, same, length, ends, spelled⟩ := token_of_after_sign found
    exact ⟨digits, after, same, length, spelled _ .minus, ends⟩
  · unfold afterAngle at found
    split at found
    · cases found
      exact ⟨['-'], _, rfl, rfl, .arrow, fun _ _ => rfl⟩
    · cases found
  · obtain ⟨content, after, rfl, unquoted, rfl, rfl⟩ := token_of_delimited found
    exact ⟨content ++ ['"'], after, by simp, by simp, .string unquoted, fun _ _ => rfl⟩
  · obtain ⟨content, after, rfl, unquoted, rfl, rfl⟩ := token_of_delimited found
    exact ⟨content ++ ['\x60'], after, by simp, by simp, .uri unquoted, fun _ _ => rfl⟩
  · split at found
    · next known =>
        cases found
        exact ⟨[], rest, rfl, rfl, .single known, fun _ _ => rfl⟩
    · cases found

end Lexeme

namespace Piece

/-- Longest match: a spelled token is one piece where the text after it does not extend it. -/
theorem of_text_of_spelled {token : Token} {text rest : List Char}
    (spelled : token.Spelled text) (ends : token.EndsBefore rest) :
    ofText (text ++ rest) = ⟨.token token, text⟩ :: ofText rest := by
  obtain ⟨first, body, rfl, -, found⟩ := Lexeme.exists_next_of_spelled spelled ends
  rw [List.cons_append, ofText, found, List.take_left, List.drop_left]

theorem of_text_space {rest : List Char} (ends : ∀ char ∈ rest.head?, isBlank char = false) :
    ofText (' ' :: rest) = ⟨.trivia .whitespace, [' ']⟩ :: ofText rest := by
  have alone : rest.takeWhile isBlank = [] := by
    cases rest with
    | nil => rfl
    | cons next rest => simp [ends next rfl]
  have found : Lexeme.next ' ' rest = ⟨.trivia .whitespace, 0⟩ := by
    simp [Lexeme.next, isBlank, alone]
  rw [ofText, found, List.take_zero, List.drop_zero]

private theorem of_text_eq_nil {text : List Char} (empty : ofText text = []) : text = [] := by
  cases text with
  | nil => rfl
  | cons first rest => simp [ofText] at empty

/-- A text is read as one token and nothing else exactly if a rule spells the token that way. -/
theorem lexemes_eq_token_iff {token : Token} {text : List Char} :
    (ofText text).map Piece.lexeme = [.token token] ↔ token.Spelled text := by
  constructor
  · intro lexemes
    cases text with
    | nil => simp [ofText] at lexemes
    | cons first rest =>
        rw [ofText, List.map_cons, List.cons.injEq, List.map_eq_nil_iff] at lexemes
        obtain ⟨same, finished⟩ := lexemes
        have found : Lexeme.next first rest = ⟨.token token, (Lexeme.next first rest).further⟩ := by
          rw [← same]
        obtain ⟨body, after, rfl, length, spelled, -⟩ := Lexeme.spelled_of_next found
        rw [length, List.drop_left] at finished
        rw [of_text_eq_nil finished, List.append_nil]
        exact spelled
  · intro spelled
    have ends : token.EndsBefore [] := fun _ none => absurd none (by simp)
    have whole := of_text_of_spelled spelled ends
    rw [List.append_nil, ofText] at whole
    rw [whole]
    rfl

end Piece

end RhoFrontend
