import RhoFrontend.Proofs.LineComments

/-!
Which lexical error a source has. It is about the first piece that is refused, and no syntax error
comes before it. The cause that is given for a malformed piece can be told from the text of the
piece alone: it opens a comment, or it is a number, or it is neither.
-/

namespace RhoFrontend

/-- One sign or none, then digits, and the number that they spell. -/
inductive SpellsInteger : List Char → Int → Prop
  | intro {negative : Bool} {sign digits : List Char} (signed : Token.Sign negative sign)
      (nonempty : digits ≠ []) (all : ∀ char ∈ digits, char.isDigit = true) :
      SpellsInteger (sign ++ digits) (Integer.valueOfDigits negative digits)

/-- A quote or a backtick, and no second one. -/
def UnclosedLiteral (text : List Char) : Prop :=
  ∃ delimiter content, (delimiter = '"' ∨ delimiter = '\x60') ∧ text = delimiter :: content ∧
    delimiter ∉ content

/-- What the cause of a malformed piece says about its text, and about the source behind it. -/
structure Malformed.Explains (cause : Malformed) (text after : List Char) : Prop where
  comment : cause = .unclosedComment ↔ OpensComment text
  integer : cause = .integerRange ↔ ∃ value, SpellsInteger text value
  beyond : ∀ value, SpellsInteger text value → value < -2 ^ 63 ∨ 2 ^ 63 ≤ value
  other : cause = .unexpected ↔ ¬ OpensComment text ∧ ¬ ∃ value, SpellsInteger text value
  stray : cause = .unexpected →
    (∃ char, text = [char] ∧ Unmatched (text ++ after)) ∨ UnclosedLiteral text ∧ after = []

namespace Integer

theorem beyond_range {value : Int} (beyond : ∀ word : Int64, word.toInt ≠ value) :
    value < -2 ^ 63 ∨ 2 ^ 63 ≤ value := by
  have low : Int64.minValue.toInt = -2 ^ 63 := by decide
  have high : Int64.maxValue.toInt = 2 ^ 63 - 1 := by decide
  have unfit : ofInt? value = none := by
    apply Option.eq_none_iff_forall_ne_some.2
    intro word fits
    exact beyond word (to_int_of_some fits)
  simp only [ofInt?, low, high, ite_eq_right_iff, reduceCtorEq, imp_false] at unfit
  omega

end Integer

/-! Text that opens something is no number, and neither is text that no rule matches. -/

section Opened

variable {text after : List Char}

theorem OpensComment.no_integer (opens : OpensComment text) :
    ¬ ∃ value, SpellsInteger text value := by
  rintro ⟨_, spelled⟩
  obtain ⟨signed, nonempty, all⟩ := spelled
  have reads := Lexeme.reads_of_digits signed nonempty all
  obtain ⟨rest, shape⟩ := opens
  rw [← shape] at reads
  cases Rule.family_of_reads reads

theorem Unmatched.no_integer (unmatched : Unmatched (text ++ after)) :
    ¬ ∃ value, SpellsInteger text value := by
  rintro ⟨_, spelled⟩
  obtain ⟨signed, nonempty, all⟩ := spelled
  have reads := Lexeme.reads_of_digits signed nonempty all
  exact unmatched _ _ _ reads (List.prefix_append _ _)

/-- With a second delimiter the text would start with a literal. -/
theorem OpensLiteral.unclosed (opens : OpensLiteral text) (unmatched : Unmatched text) :
    UnclosedLiteral text := by
  have unclosed {delimiter : Char} {rule : Rule} {lexeme : List Char → Lexeme}
      (isDelimiter : delimiter = '"' ∨ delimiter = '\x60')
      (reads : ∀ content, delimiter ∉ content →
        rule.Reads (delimiter :: (content ++ [delimiter])) (lexeme content))
      (isStart : [delimiter] <+: text) : UnclosedLiteral text := by
    obtain ⟨content, rfl⟩ := isStart
    obtain ⟨inside, outside, rfl, -, free, ends, -⟩ := Lexeme.exists_before delimiter content
    rcases ends with rfl | ⟨rest, rfl⟩
    · rw [List.append_nil]
      exact ⟨delimiter, inside, isDelimiter, rfl, free⟩
    · have closed : delimiter :: (inside ++ [delimiter]) <+:
          [delimiter] ++ (inside ++ delimiter :: rest) := ⟨rest, by simp⟩
      exact absurd closed (unmatched _ _ _ (reads inside free))
  rcases opens with isStart | isStart
  · exact unclosed (.inl rfl) (fun _ => .string) isStart
  · exact unclosed (.inr rfl) (fun _ => .uri) isStart

end Opened

theorem SpellsInteger.value_of_digits {negative : Bool} {sign digits : List Char} {value : Int}
    (signed : Token.Sign negative sign) (all : ∀ char ∈ digits, char.isDigit = true)
    (spelled : SpellsInteger (sign ++ digits) value) :
    value = Integer.valueOfDigits negative digits := by
  generalize shape : sign ++ digits = text at spelled
  obtain ⟨otherSigned, -, otherAll⟩ := spelled
  obtain ⟨rfl, rfl⟩ := Rule.sign_of_append signed otherSigned all otherAll shape
  rfl

theorem Malformed.explains_unexpected {text after : List Char} (noComment : ¬ OpensComment text)
    (unmatched : Unmatched (text ++ after))
    (stray : (∃ char, text = [char]) ∨ UnclosedLiteral text ∧ after = []) :
    Malformed.unexpected.Explains text after where
  comment := ⟨nofun, fun opens => absurd opens noComment⟩
  integer := ⟨nofun, fun spelled => absurd spelled unmatched.no_integer⟩
  beyond := fun value spelled => absurd ⟨value, spelled⟩ unmatched.no_integer
  other := ⟨fun _ => ⟨noComment, unmatched.no_integer⟩, fun _ => rfl⟩
  stray := fun _ => stray.imp_left fun ⟨char, alone⟩ => ⟨char, alone, unmatched⟩

/-- The integer that is refused has one value only, whatever way its digits are looked at. -/
theorem Malformed.explains_range {negative : Bool} {sign digits : List Char}
    (signed : Token.Sign negative sign) (nonempty : digits ≠ [])
    (all : ∀ char ∈ digits, char.isDigit = true)
    (beyond : ∀ word : Int64, word.toInt ≠ Integer.valueOfDigits negative digits)
    (after : List Char) : Malformed.integerRange.Explains (sign ++ digits) after := by
  have spelled := SpellsInteger.intro signed nonempty all
  have noComment : ¬ OpensComment (sign ++ digits) := fun opens => opens.no_integer ⟨_, spelled⟩
  refine ⟨⟨nofun, fun opens => absurd opens noComment⟩, ⟨fun _ => ⟨_, spelled⟩, fun _ => rfl⟩, ?_,
    ⟨nofun, fun neither => absurd ⟨_, spelled⟩ neither.2⟩, nofun⟩
  intro value other
  rw [SpellsInteger.value_of_digits signed all other]
  exact Integer.beyond_range beyond

theorem Malformed.explains_comment {text after : List Char} (opens : OpensComment text) :
    Malformed.unclosedComment.Explains text after where
  comment := ⟨fun _ => opens, fun _ => rfl⟩
  integer := ⟨nofun, fun spelled => absurd spelled opens.no_integer⟩
  beyond := fun value spelled => absurd ⟨value, spelled⟩ opens.no_integer
  other := ⟨nofun, fun neither => absurd opens neither.1⟩
  stray := nofun

/-! The cause can be found again by looking for a comment and for digits behind any number of
signs, although longest match takes one sign at most. -/

theorem Malformed.is_number_of_spelled {text : List Char} {value : Int}
    (spelled : SpellsInteger text value) : Malformed.isNumber text = true := by
  obtain @⟨negative, sign, digits, signed, nonempty, all⟩ := spelled
  obtain ⟨first, rest, rfl⟩ := List.exists_cons_of_ne_nil nonempty
  have firstDigit := all first List.mem_cons_self
  have noSign : (first == '+' || first == '-') = false := by
    rw [Bool.eq_false_iff]
    intro isSign
    simp only [Bool.or_eq_true, beq_iff_eq] at isSign
    rcases isSign with rfl | rfl <;> cases firstDigit
  have kept : (sign ++ first :: rest).dropWhile (fun char => char == '+' || char == '-') =
      first :: rest := by
    cases signed <;> simp [List.dropWhile, noSign]
  have digit : (sign ++ first :: rest).any Char.isDigit = true :=
    List.any_eq_true.2 ⟨first, by simp, firstDigit⟩
  rw [Malformed.isNumber, kept, digit, List.all_eq_true.2 all]
  simp

/-- What stands alone or is not closed is a number only if it is a single digit. -/
theorem Malformed.spelled_of_is_number {text : List Char}
    (stray : (∃ char, text = [char]) ∨ UnclosedLiteral text)
    (number : Malformed.isNumber text = true) : ∃ value, SpellsInteger text value := by
  simp only [Malformed.isNumber, Bool.and_eq_true] at number
  obtain ⟨⟨-, digits⟩, digit⟩ := number
  rcases stray with ⟨char, rfl⟩ | ⟨delimiter, content, isDelimiter, rfl, -⟩
  · have all : ∀ other ∈ [char], other.isDigit = true := by simpa using digit
    exact ⟨_, @SpellsInteger.intro false [] [char] .absent (List.cons_ne_nil _ _) all⟩
  · rcases isDelimiter with rfl | rfl <;> simp [List.dropWhile] at digits

theorem Malformed.of_text_explained {cause : Malformed} {text after : List Char}
    (explains : cause.Explains text after) : Malformed.ofText text = cause := by
  have opens : ['/', '*'].isPrefixOf text = true ↔ cause = .unclosedComment := by
    rw [List.isPrefixOf_iff_prefix, explains.comment]
    rfl
  cases cause with
  | unclosedComment => rw [Malformed.ofText, if_pos (opens.2 rfl)]
  | integerRange =>
      obtain ⟨value, spelled⟩ := explains.integer.1 rfl
      have noComment := mt opens.1 nofun
      rw [Malformed.ofText, if_neg noComment, if_pos (Malformed.is_number_of_spelled spelled)]
  | unexpected =>
      have stray : (∃ char, text = [char]) ∨ UnclosedLiteral text :=
        (explains.stray rfl).imp (fun ⟨char, alone, _⟩ => ⟨char, alone⟩) And.left
      have noNumber := mt (Malformed.spelled_of_is_number stray) (explains.other.1 rfl).2
      have noComment := mt opens.1 nofun
      rw [Malformed.ofText, if_neg noComment, if_neg noNumber]

theorem LongestMatch.explains {text after : List Char} {cause : Malformed}
    (longest : LongestMatch (text ++ after) ⟨.malformed cause, text⟩) :
    cause.Explains text after := by
  generalize whole : text ++ after = source at longest
  generalize isPiece : (⟨.malformed cause, text⟩ : Piece) = piece at longest
  cases longest with
  | matched reads =>
      subst isPiece
      cases reads with
      | integerRange signed nonempty all beyond =>
          exact Malformed.explains_range signed nonempty all beyond after
  | openComment unmatched opens =>
      cases isPiece
      exact Malformed.explains_comment opens
  | openLiteral unmatched opens =>
      cases isPiece
      have finished : after = [] := List.append_right_eq_self.1 whole
      have unclosed := opens.unclosed unmatched
      rw [← whole] at unmatched
      apply Malformed.explains_unexpected _ unmatched (.inr ⟨unclosed, finished⟩)
      exact fun comment => comment.not_literal opens
  | @stray first rest same unmatched noComment =>
      cases isPiece
      rw [← whole] at unmatched noComment
      apply Malformed.explains_unexpected _ unmatched (.inl ⟨first, rfl⟩)
      exact fun opens => noComment (opens.trans (List.prefix_append _ _))

/-! The first piece that is refused decides. -/

/-- The piece is malformed, or it is a line comment and lacks the newline that the options ask
for. -/
inductive Piece.Refused (options : Options) (piece : Piece) : LexicalFault → Prop
  | malformed {cause : Malformed} (lexeme : piece.lexeme = .malformed cause) :
      Refused options piece (.malformed cause)
  | openComment (strict : options.strictLineComments = true)
      (comment : piece.lexeme = .trivia .lineComment) (ends : piece.text.getLast? ≠ some '\n') :
      Refused options piece .missingNewline

/-- The error is about a piece of the source that is refused, and no piece before it is. -/
def LexicalError.StandsFirst (options : Options) (source : String) (error : LexicalError) : Prop :=
  ∃ before piece after, Piece.ofSource source.toList = before ++ (piece, error.span) :: after ∧
    (∀ earlier ∈ before, ∀ fault, ¬ earlier.1.Refused options fault) ∧
      piece.Refused options error.fault ∧ error.text = error.span.textIn source

namespace Piece

variable {options : Options} {piece : Piece} {span : Span}

theorem significant_eq_error_iff {error : LexicalError} :
    piece.significant options span = .error error ↔
      piece.Refused options error.fault ∧ error.span = span ∧
        error.text = String.ofList piece.text := by
  obtain ⟨fault, place, text⟩ := error
  obtain ⟨lexeme, letters⟩ := piece
  constructor
  · intro refused
    cases lexeme with
    | token token => cases refused
    | malformed cause =>
        cases refused
        exact ⟨.malformed rfl, rfl, rfl⟩
    | trivia kind =>
        simp only [significant] at refused
        split at refused
        · next lacks =>
            cases refused
            simp only [lacksNewline, Bool.and_eq_true, beq_iff_eq, bne_iff_ne] at lacks
            exact ⟨.openComment lacks.1 lacks.2.1 lacks.2.2, rfl, rfl⟩
        · cases refused
  · rintro ⟨refused, rfl, rfl⟩
    cases refused with
    | malformed isMalformed =>
        cases isMalformed
        rfl
    | openComment strict isComment ends =>
        cases isComment
        have lacks : lacksNewline ⟨.trivia .lineComment, letters⟩ = true := by
          simpa [lacksNewline] using ends
        simp only [significant, strict, lacks, Bool.and_self, if_true]

theorem passes_iff : (∃ passed, piece.significant options span = .ok passed) ↔
    ∀ fault, ¬ piece.Refused options fault := by
  constructor
  · rintro ⟨passed, read⟩ fault refused
    have failed : piece.significant options span = .error ⟨fault, span, String.ofList piece.text⟩ :=
      significant_eq_error_iff.2 ⟨refused, rfl, rfl⟩
    rw [read] at failed
    cases failed
  · intro passes
    cases read : piece.significant options span with
    | error error => exact absurd (significant_eq_error_iff.1 read).1 (passes error.fault)
    | ok passed => exact ⟨passed, rfl⟩

end Piece

namespace SpannedToken

variable {options : Options} {pieces : List (Piece × Span)}

/-- The first piece fails, or it passes and the others decide. -/
theorem of_pieces_cons_eq_error_iff {piece : Piece} {span : Span} {error : LexicalError} :
    ofPieces options ((piece, span) :: pieces) = .error error ↔
      piece.significant options span = .error error ∨
        (∃ passed, piece.significant options span = .ok passed) ∧
          ofPieces options pieces = .error error := by
  rw [ofPieces]
  cases piece.significant options span with
  | error found => simp
  | ok passed =>
      cases passed with
      | none => simp
      | some token => cases ofPieces options pieces <;> simp [Except.map]

theorem of_pieces_eq_error_iff {error : LexicalError} : ofPieces options pieces = .error error ↔
    ∃ before piece after, pieces = before ++ (piece, error.span) :: after ∧
      (∀ earlier ∈ before, ∀ fault, ¬ earlier.1.Refused options fault) ∧
        piece.Refused options error.fault ∧ error.text = String.ofList piece.text := by
  induction pieces with
  | nil =>
      constructor
      · nofun
      · rintro ⟨before, piece, after, shape, -⟩
        simp at shape
  | cons first rest induction =>
      obtain ⟨piece, span⟩ := first
      rw [of_pieces_cons_eq_error_iff, Piece.significant_eq_error_iff, Piece.passes_iff, induction]
      constructor
      · rintro (⟨refused, rfl, text⟩ | ⟨passes, before, other, after, rfl, earlier, refused⟩)
        · exact ⟨[], piece, rest, rfl, List.forall_mem_nil _, refused, text⟩
        · exact ⟨(piece, span) :: before, other, after, rfl,
            List.forall_mem_cons.2 ⟨passes, earlier⟩, refused⟩
      · rintro ⟨before, other, after, shape, earlier, refused⟩
        cases before with
        | nil =>
            cases shape
            exact .inl ⟨refused.1, rfl, refused.2⟩
        | cons head before =>
            cases shape
            obtain ⟨passes, others⟩ := List.forall_mem_cons.1 earlier
            exact .inr ⟨passes, before, other, after, rfl, others, refused⟩

theorem exists_error_of_refused {piece : Piece} {span : Span} {fault : LexicalFault}
    (member : (piece, span) ∈ pieces) (refused : piece.Refused options fault) :
    ∃ error, ofPieces options pieces = .error error := by
  induction pieces with
  | nil => cases member
  | cons first rest induction =>
      obtain ⟨head, place⟩ := first
      simp only [of_pieces_cons_eq_error_iff]
      cases read : head.significant options place with
      | error error => exact ⟨error, .inl rfl⟩
      | ok passed =>
          rcases List.mem_cons.1 member with same | later
          · cases same
            exact absurd refused (Piece.passes_iff.1 ⟨passed, read⟩ fault)
          · obtain ⟨error, failed⟩ := induction later
            exact ⟨error, .inr ⟨⟨passed, rfl⟩, failed⟩⟩

end SpannedToken

section Source

variable {options : Options} {source : String} {error : LexicalError}

theorem lex_eq_error_iff : SpannedToken.ofSource options source.toList = .error error ↔
    error.StandsFirst options source := by
  have sameText {before after : List (Piece × Span)} {piece : Piece}
      (split : Piece.ofSource source.toList = before ++ (piece, error.span) :: after) :
      error.span.textIn source = String.ofList piece.text := by
    have member : (piece, error.span) ∈ Piece.ofSource source.toList := by
      rw [split]
      exact List.mem_append_right before List.mem_cons_self
    exact (Piece.placed_in_source member).2.1
  rw [SpannedToken.ofSource, ← Piece.ofSource, SpannedToken.of_pieces_eq_error_iff]
  constructor
  · rintro ⟨before, piece, after, split, earlier, refused, text⟩
    exact ⟨before, piece, after, split, earlier, refused, text.trans (sameText split).symm⟩
  · rintro ⟨before, piece, after, split, earlier, refused, text⟩
    exact ⟨before, piece, after, split, earlier, refused, text.trans (sameText split)⟩

/-- Where a source has tokens, the only errors left are syntactic. -/
theorem derivations_eq_lexical_iff :
    ProcessTree.derivations options source = .error (.lexical error) ↔
      SpannedToken.ofSource options source.toList = .error error := by
  cases lexed : SpannedToken.ofSource options source.toList with
  | error found => simp [derivations_of_lexical_error lexed]
  | ok spanned =>
      simp only [ProcessTree.derivations, lexed]
      split <;> simp

theorem parse_eq_lexical_iff : ProcessTree.parse options source = .error (.lexical error) ↔
    ProcessTree.derivations options source = .error (.lexical error) := by
  rw [ProcessTree.parse]
  cases derived : ProcessTree.derivations options source with
  | error found => simp [Except.bind]
  | ok trees =>
      simp only [Except.bind, reduceCtorEq, iff_false]
      unfold ProcessTree.unique
      split <;> simp

theorem exists_lexical_iff :
    (∃ error, ProcessTree.derivations options source = .error (.lexical error)) ↔
      ∃ each ∈ Piece.ofSource source.toList, ∃ fault, each.1.Refused options fault := by
  simp only [derivations_eq_lexical_iff]
  constructor
  · rintro ⟨error, failed⟩
    obtain ⟨before, piece, after, split, -, refused, -⟩ := lex_eq_error_iff.1 failed
    rw [split]
    exact ⟨_, List.mem_append_right before List.mem_cons_self, _, refused⟩
  · rintro ⟨⟨piece, span⟩, member, fault, refused⟩
    exact SpannedToken.exists_error_of_refused member refused

end Source

/-- A source has a lexical error exactly if one of its pieces is refused, whatever its tokens would
be read as. The error is about the first such piece, and has its span and its text. The cause of a
malformed piece is what the text of the piece shows, and can be found from that text alone. -/
theorem lexical_errors_come_first (options : Options) (source : String) :
    ((∃ error, ProcessTree.derivations options source = .error (.lexical error)) ↔
        ∃ each ∈ Piece.ofSource source.toList, ∃ fault, each.1.Refused options fault) ∧
      (∀ error, ProcessTree.derivations options source = .error (.lexical error) ↔
        error.StandsFirst options source) ∧
      (∀ error, ProcessTree.parse options source = .error (.lexical error) ↔
        error.StandsFirst options source) ∧
      ∀ (piece : Piece) (span : Span) (cause : Malformed),
        (piece, span) ∈ Piece.ofSource source.toList → piece.lexeme = .malformed cause →
          ∃ before after, source.toList = before ++ (piece.text ++ after) ∧
            span = ⟨byteLength before, byteLength (before ++ piece.text)⟩ ∧
              cause.Explains piece.text after ∧ Malformed.ofText piece.text = cause := by
  refine ⟨exists_lexical_iff, ?_, ?_, ?_⟩
  · intro error
    rw [derivations_eq_lexical_iff, lex_eq_error_iff]
  · intro error
    rw [parse_eq_lexical_iff, derivations_eq_lexical_iff, lex_eq_error_iff]
  · intro piece span cause member isMalformed
    have cut := cut_by_longest_match_of_text source.toList
    obtain ⟨before, after, split, longest, place⟩ := Piece.with_spans_bytes cut member
    obtain ⟨lexeme, text⟩ := piece
    cases isMalformed
    rw [Nat.zero_add, Nat.zero_add] at place
    have explains := longest.explains
    exact ⟨before, after, split, place, explains, Malformed.of_text_explained explains⟩

/-- The number is refused first. The bar before it has no operand, and the quote behind it is never
closed, but neither is reported. -/
theorem lexical_errors_come_first_before_quote :
    ProcessTree.derivations {} "|-9223372036854775809\"é" =
        .error (.lexical ⟨.malformed .integerRange, ⟨1, 21⟩, "-9223372036854775809"⟩) ∧
      LexicalError.StandsFirst {} "|-9223372036854775809\"é"
        ⟨.malformed .integerRange, ⟨1, 21⟩, "-9223372036854775809"⟩ ∧
      (⟨.malformed .unexpected, ['"', 'é']⟩, ⟨21, 24⟩) ∈
        Piece.ofSource "|-9223372036854775809\"é".toList ∧
      UnclosedLiteral ['"', 'é'] := by
  have failed : ProcessTree.derivations {} "|-9223372036854775809\"é" =
      .error (.lexical ⟨.malformed .integerRange, ⟨1, 21⟩, "-9223372036854775809"⟩) := by cbv
  have pieces : Piece.ofSource "|-9223372036854775809\"é".toList =
      [(⟨.token (.punctuation .pipe), ['|']⟩, ⟨0, 1⟩),
        (⟨.malformed .integerRange, "-9223372036854775809".toList⟩, ⟨1, 21⟩),
        (⟨.malformed .unexpected, ['"', 'é']⟩, ⟨21, 24⟩)] := by cbv
  have member : (⟨.malformed .unexpected, ['"', 'é']⟩, ⟨21, 24⟩) ∈
      Piece.ofSource "|-9223372036854775809\"é".toList := by
    rw [pieces]
    exact List.mem_of_getLast? rfl
  obtain ⟨-, first, -, causes⟩ := lexical_errors_come_first {} "|-9223372036854775809\"é"
  obtain ⟨before, after, -, -, explained, -⟩ := causes _ _ _ member rfl
  rcases explained.stray rfl with ⟨char, alone, -⟩ | ⟨unclosed, -⟩
  · cases alone
  · exact ⟨failed, (first _).1 failed, member, unclosed⟩

end RhoFrontend
