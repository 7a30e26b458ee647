import RhoFrontend.Proofs.Lexing.Rules

/-!
What the reader finds at the start of a text is the longest match there. This is shown family by
family: a rule that matches, no longer match in the family, or no match at all.
-/

namespace RhoFrontend

namespace Lexeme

variable {first : Char} {rest : List Char}

theorem blank_longest_match (blank : isBlank first = true) :
    LongestMatch (first :: rest)
      ⟨.trivia .whitespace, first :: rest.take (rest.takeWhile isBlank).length⟩ := by
  obtain ⟨inside, outside, rfl, taken, blanks, stops⟩ := exists_span isBlank rest
  have all : ∀ char ∈ first :: inside, isBlank char = true :=
    List.forall_mem_cons.2 ⟨blank, blanks⟩
  rw [taken, List.take_left]
  apply LongestMatch.of_family .whitespace
  · apply Rule.Reads.whitespace (List.cons_ne_nil first inside)
    exact fun char member => (Rule.blank_iff char).2 (all char member)
  · exact ⟨outside, rfl⟩
  · intro other longer lexeme family reads isStart
    cases reads with
    | whitespace nonempty blanks =>
        have blank : ∀ char ∈ longer, isBlank char = true :=
          fun char member => (Rule.blank_iff char).1 (blanks char member)
        exact length_le_of_start blank stops isStart
    | _ => cases family
  · intro isName
    cases isName

theorem of_spelling_eq_some_iff {letters : String} {keyword : Keyword} :
    Keyword.ofSpelling? letters = some keyword ↔ keyword.spelling = letters := by
  constructor
  · intro found
    have same := List.find?_some found
    exact beq_iff_eq.1 same
  · rintro rfl
    cases keyword <;> decide

theorem name_parts_of_keyword (keyword : Keyword) :
    ∀ char ∈ keyword.spelling.toList, isNamePart char = true := by
  cases keyword <;> exact List.all_eq_true.1 rfl

theorem word_longest_match (starts : isNameStart first = true) :
    LongestMatch (first :: rest)
      ⟨.token (ofWord (first :: rest.takeWhile isNamePart)),
        first :: rest.take (rest.takeWhile isNamePart).length⟩ := by
  obtain ⟨inside, outside, rfl, taken, parts, stops⟩ := exists_span isNamePart rest
  rw [taken, List.take_left]
  have longest : ∀ (other : Rule) (longer : List Char) (lexeme : Lexeme),
      other.family = .word → other.Reads longer lexeme → longer <+: first :: (inside ++ outside) →
        longer.length ≤ (first :: inside).length := by
    intro other longer lexeme family reads isStart
    have all : ∀ char ∈ longer, isNamePart char = true := by
      cases reads with
      | keyword keyword => exact name_parts_of_keyword keyword
      | identifier otherStarts otherParts =>
          refine List.forall_mem_cons.2 ⟨?_, ?_⟩
          · exact Rule.name_part_of_start ((Rule.name_start_iff _).1 otherStarts)
          · exact fun char member => (Rule.name_part_iff char).1 (otherParts char member)
      | _ => cases family
    exact length_le_of_start all stops isStart
  cases known : Keyword.ofSpelling? (String.ofList (first :: inside)) with
  | some keyword =>
      have spelled : keyword.spelling.toList = first :: inside := by
        rw [of_spelling_eq_some_iff.1 known, String.toList_ofList]
      have read : ofWord (first :: inside) = .keyword keyword := by
        rw [ofWord, known]
      have reads : Rule.Reads (.keyword keyword) (first :: inside)
          (.token (ofWord (first :: inside))) := by
        rw [read, ← spelled]
        exact .keyword keyword
      exact .of_family (.keyword keyword) reads ⟨outside, rfl⟩ longest fun isName => by cases isName
  | none =>
      have read : ofWord (first :: inside) = .identifier (String.ofList (first :: inside)) := by
        rw [ofWord, known]
      have reads : Rule.Reads .identifier (first :: inside)
          (.token (ofWord (first :: inside))) := by
        rw [read]
        apply Rule.Reads.identifier ((Rule.name_start_iff first).2 starts)
        exact fun char member => (Rule.name_part_iff char).2 (parts char member)
      refine .of_family .identifier reads ⟨outside, rfl⟩ longest ?_
      intro _ word spelled
      have letters : word.spelling.toList = first :: inside := spelled
      have found : Keyword.ofSpelling? (String.ofList (first :: inside)) = some word := by
        rw [of_spelling_eq_some_iff, ← letters, String.ofList_toList]
      rw [known] at found
      cases found

theorem of_int_eq_some_iff {value : Int} {word : Int64} :
    Integer.ofInt? value = some word ↔ word.toInt = value := by
  constructor
  · exact Integer.to_int_of_some
  · rintro rfl
    exact Integer.of_int_to_int word

theorem reads_of_digits {negative : Bool} {sign digits : List Char}
    (signed : Token.Sign negative sign) (nonempty : digits ≠ [])
    (all : ∀ char ∈ digits, char.isDigit = true) :
    Rule.Reads .integer (sign ++ digits) (ofDigits negative digits) := by
  unfold ofDigits
  split
  · next value fits => exact .integer signed nonempty all (of_int_eq_some_iff.1 fits)
  · next beyond =>
      apply Rule.Reads.integerRange signed nonempty all
      intro value same
      rw [of_int_eq_some_iff.2 same] at beyond
      cases beyond

/-- Sign and digits of a match of the only rule that there is for integers. -/
theorem digits_of_reads {rule : Rule} {text : List Char} {lexeme : Lexeme}
    (family : rule.family = .integer) (reads : rule.Reads text lexeme) :
    ∃ negative sign digits, text = sign ++ digits ∧ Token.Sign negative sign ∧ digits ≠ [] ∧
      ∀ char ∈ digits, char.isDigit = true := by
  cases reads with
  | integer signed nonempty all | integerRange signed nonempty all =>
      exact ⟨_, _, _, rfl, signed, nonempty, all⟩
  | _ => cases family

theorem digits_longest_match (digit : first.isDigit = true) :
    LongestMatch (first :: rest)
      ⟨ofDigits false (first :: rest.takeWhile Char.isDigit),
        first :: rest.take (rest.takeWhile Char.isDigit).length⟩ := by
  obtain ⟨inside, outside, rfl, taken, digits, stops⟩ := exists_span Char.isDigit rest
  have all : ∀ char ∈ first :: inside, char.isDigit = true :=
    List.forall_mem_cons.2 ⟨digit, digits⟩
  rw [taken, List.take_left]
  apply LongestMatch.of_family .integer
  · exact reads_of_digits .absent (List.cons_ne_nil first inside) all
  · exact ⟨outside, rfl⟩
  · intro other longer lexeme family reads isStart
    obtain ⟨negative, sign, otherDigits, rfl, signed, -, otherAll⟩ := digits_of_reads family reads
    cases signed with
    | absent => exact length_le_of_start otherAll stops isStart
    | plus | minus =>
        obtain ⟨rfl, -⟩ := List.cons_prefix_cons.1 isStart
        cases digit
  · intro isName
    cases isName

/-- After a sign there have to be digits, because another sign is none. -/
theorem digits_prefix_after_sign {negative : Bool} (signed : Token.Sign negative [first])
    {rule : Rule} {text : List Char} {lexeme : Lexeme} (family : rule.family = .integer)
    (reads : rule.Reads text lexeme) (isStart : text <+: first :: rest) :
    ∃ digits, text = first :: digits ∧ digits ≠ [] ∧ digits <+: rest ∧
      ∀ char ∈ digits, char.isDigit = true := by
  obtain ⟨_, sign, digits, rfl, otherSigned, nonempty, all⟩ := digits_of_reads family reads
  cases otherSigned with
  | absent =>
      obtain ⟨head, body, rfl⟩ := List.exists_cons_of_ne_nil nonempty
      obtain ⟨rfl, -⟩ := List.cons_prefix_cons.1 isStart
      have digit := all head List.mem_cons_self
      cases signed <;> cases digit
  | plus | minus =>
      obtain ⟨rfl, later⟩ := List.cons_prefix_cons.1 isStart
      exact ⟨digits, rfl, nonempty, later, all⟩

theorem family_of_sign {negative : Bool} (signed : Token.Sign negative [first]) :
    Rule.Family.ofChar? first = some .integer := by
  cases signed <;> rfl

theorem not_opening_of_family (rest : List Char) {family : Option Rule.Family}
    (known : Rule.Family.ofChar? first = family) (notComment : family ≠ some .comment)
    (notString : family ≠ some .string) (notUri : family ≠ some .uri) :
    ¬ OpensComment (first :: rest) ∧ ¬ OpensLiteral (first :: rest) := by
  subst known
  refine ⟨?_, ?_⟩
  · intro opens
    obtain ⟨rfl, -⟩ := List.cons_prefix_cons.1 opens
    exact notComment rfl
  · rintro (opens | opens)
    · obtain ⟨rfl, -⟩ := List.cons_prefix_cons.1 opens
      exact notString rfl
    · obtain ⟨rfl, -⟩ := List.cons_prefix_cons.1 opens
      exact notUri rfl

theorem sign_longest_match {negative : Bool} (signed : Token.Sign negative [first]) :
    LongestMatch (first :: rest)
      ⟨(afterSign negative rest).lexeme,
        first :: rest.take (afterSign negative rest).further⟩ := by
  obtain ⟨inside, outside, rfl, taken, digits, stops⟩ := exists_span Char.isDigit rest
  have family := family_of_sign signed
  unfold afterSign
  rw [taken]
  cases inside with
  | nil =>
      obtain ⟨noComment, noLiteral⟩ := not_opening_of_family ([] ++ outside) family
        (by decide) (by decide) (by decide)
      refine .stray rfl ?_ noComment noLiteral
      apply Unmatched.of_family family
      intro rule start lexeme same reads isStart
      obtain ⟨digits, -, nonempty, isPrefix, all⟩ :=
        digits_prefix_after_sign signed (Option.some.inj same).symm reads isStart
      have short := length_le_of_start all stops isPrefix
      exact nonempty (List.eq_nil_of_length_eq_zero (Nat.le_zero.1 short))
  | cons next inside =>
      have nonempty : next :: inside ≠ [] := List.cons_ne_nil next inside
      simp only [List.isEmpty_cons, Bool.false_eq_true, if_false, List.take_left]
      apply LongestMatch.of_family .integer
      · exact reads_of_digits signed nonempty digits
      · exact ⟨outside, rfl⟩
      · intro other longer lexeme same reads isStart
        obtain ⟨otherDigits, rfl, -, isPrefix, all⟩ :=
          digits_prefix_after_sign signed same reads isStart
        exact Nat.succ_le_succ (length_le_of_start all stops isPrefix)
      · intro isName
        cases isName

/-- The end that is found of a block comment is the first one, and none is found only where there
is none. -/
theorem comment_end_cases (text : List Char) :
    (∃ body after, text = body ++ '*' :: '/' :: after ∧ ¬ ['*', '/'] <:+: body ∧
        commentEnd? text = some (body.length + 2)) ∨
      ¬ ['*', '/'] <:+: text ∧ commentEnd? text = none := by
  fun_induction commentEnd? text with
  | case1 => exact .inr ⟨by simp, rfl⟩
  | case2 after => exact .inl ⟨[], after, rfl, by simp, rfl⟩
  | case3 head rest notHere induction =>
      rcases induction with ⟨body, after, rfl, first, found⟩ | ⟨absent, found⟩
      · refine .inl ⟨head :: body, after, rfl, ?_, by rw [found]; rfl⟩
        rw [List.infix_cons_iff, not_or]
        refine ⟨?_, first⟩
        intro here
        obtain ⟨rfl, later⟩ := List.cons_prefix_cons.1 here
        obtain ⟨tail, rfl⟩ := later
        exact notHere (tail ++ '*' :: '/' :: after) rfl rfl
      · refine .inr ⟨?_, by rw [found]; rfl⟩
        rw [List.infix_cons_iff, not_or]
        refine ⟨?_, absent⟩
        intro here
        obtain ⟨rfl, later⟩ := List.cons_prefix_cons.1 here
        obtain ⟨tail, rfl⟩ := later
        exact notHere tail rfl rfl

theorem comment_length_le {body other after : List Char} (first : ¬ ['*', '/'] <:+: other)
    (isStart : other ++ ['*', '/'] <+: body ++ '*' :: '/' :: after) :
    other.length ≤ body.length := by
  induction body generalizing other with
  | nil =>
      rcases other with _ | ⟨star, _ | ⟨slash, tail⟩⟩
      · exact Nat.le_refl 0
      · obtain ⟨-, later⟩ := List.cons_prefix_cons.1 isStart
        obtain ⟨impossible, -⟩ := List.cons_prefix_cons.1 later
        cases impossible
      · obtain ⟨rfl, later⟩ := List.cons_prefix_cons.1 isStart
        obtain ⟨rfl, -⟩ := List.cons_prefix_cons.1 later
        exact absurd ⟨[], tail, rfl⟩ first
  | cons next body induction =>
      cases other with
      | nil => exact Nat.zero_le _
      | cons head tail =>
          rw [List.infix_cons_iff, not_or] at first
          obtain ⟨-, later⟩ := List.cons_prefix_cons.1 isStart
          exact Nat.succ_le_succ (induction first.2 later)

theorem comment_of_reads {rule : Rule} {text : List Char} {lexeme : Lexeme}
    (family : rule.family = .comment) (reads : rule.Reads text lexeme) :
    (∃ body ending, text = '/' :: '/' :: (body ++ ending) ∧ '\n' ∉ body ∧
        (ending = [] ∨ ending = ['\n'])) ∨
      ∃ body, text = '/' :: '*' :: (body ++ ['*', '/']) ∧ ¬ ['*', '/'] <:+: body := by
  cases reads with
  | lineComment inLine ends => exact .inl ⟨_, _, rfl, inLine, ends⟩
  | blockComment first => exact .inr ⟨_, rfl, first⟩
  | _ => cases family

theorem behind_slash {mark other : Char} {text rest : List Char}
    (isStart : '/' :: mark :: text <+: '/' :: other :: rest) : mark = other ∧ text <+: rest :=
  List.cons_prefix_cons.1 (List.cons_prefix_cons.1 isStart).2

/-- The part of a text before the first mark of a kind, what is behind it, and that no other start
of the text without such a mark is longer. -/
theorem exists_before (mark : Char) (rest : List Char) :
    ∃ inside outside, rest = inside ++ outside ∧ rest.takeWhile (· != mark) = inside ∧
      mark ∉ inside ∧ (outside = [] ∨ ∃ after, outside = mark :: after) ∧
      ∀ start, mark ∉ start → start <+: inside ++ outside → start.length ≤ inside.length := by
  obtain ⟨inside, outside, rfl, taken, others, stops⟩ := exists_span (· != mark) rest
  refine ⟨inside, outside, rfl, taken, ?_, ?_, ?_⟩
  · intro member
    simpa using others mark member
  · cases outside with
    | nil => exact .inl rfl
    | cons next after =>
        have same : next = mark := by simpa using stops next rfl
        exact .inr ⟨after, by rw [same]⟩
  · intro start single isStart
    apply length_le_of_start _ stops isStart
    intro char member
    rw [bne_iff_ne]
    rintro rfl
    exact single member

/-- A line comment that reaches the end of the text is as long as a match can be. One with a
newline ends there, because the newline is not part of any line. -/
theorem line_comment_longest_match (rest : List Char) :
    LongestMatch ('/' :: '/' :: rest)
      ⟨.trivia .lineComment,
        '/' :: '/' :: rest.take ((rest.takeWhile (· != '\n')).length + 1)⟩ := by
  obtain ⟨inside, outside, rfl, taken, inLine, ends, longest⟩ := exists_before '\n' rest
  rw [taken, List.take_length_add_append]
  rcases ends with rfl | ⟨after, rfl⟩
  · rw [List.take_nil]
    apply LongestMatch.of_family .lineComment
    · exact .lineComment inLine (.inl rfl)
    · exact List.prefix_rfl
    · intro other longer lexeme family reads isStart
      exact isStart.length_le
    · intro isName
      cases isName
  · apply LongestMatch.of_family .lineComment
    · exact .lineComment inLine (.inr rfl)
    · exact ⟨after, by simp⟩
    · intro other longer lexeme family reads isStart
      rcases comment_of_reads family reads with ⟨body, ending, rfl, single, ends⟩ | ⟨body, rfl, -⟩
      · have bodyStart := (List.prefix_append body ending).trans (behind_slash isStart).2
        have bound : body.length ≤ inside.length := longest body single bodyStart
        have one : ending.length ≤ 1 := by rcases ends with rfl | rfl <;> decide
        simp only [List.length_cons, List.length_append, List.take_succ_cons, List.take_zero,
          List.length_nil]
        omega
      · cases (behind_slash isStart).1
    · intro isName
      cases isName

theorem block_comment_longest_match {body after : List Char} (first : ¬ ['*', '/'] <:+: body) :
    LongestMatch ('/' :: '*' :: (body ++ '*' :: '/' :: after))
      ⟨.trivia .blockComment, '/' :: '*' :: (body ++ ['*', '/'])⟩ := by
  apply LongestMatch.of_family .blockComment
  · exact .blockComment first
  · exact ⟨after, by simp⟩
  · intro other longer lexeme family reads isStart
    rcases comment_of_reads family reads with ⟨line, ending, rfl, -, -⟩ | ⟨inner, rfl, unclosed⟩
    · cases (behind_slash isStart).1
    · have bound := comment_length_le unclosed (behind_slash isStart).2
      simpa using bound
  · intro isName
    cases isName

theorem slash_longest_match (rest : List Char) :
    LongestMatch ('/' :: rest)
      ⟨(afterSlash rest).lexeme, '/' :: rest.take (afterSlash rest).further⟩ := by
  have comment : Rule.Family.ofChar? '/' = some .comment := rfl
  fun_cases afterSlash rest with
  | case1 rest body =>
      rw [Nat.add_comm 1, List.take_succ_cons, ← List.take_take, List.take_length]
      exact line_comment_longest_match rest
  | case2 rest length found =>
      rcases comment_end_cases rest with ⟨body, after, rfl, first, ends⟩ | ⟨-, ends⟩
      · rw [found] at ends
        cases ends
        rw [Nat.add_comm 1, List.take_succ_cons, List.take_length_add_append]
        exact block_comment_longest_match first
      · rw [found] at ends
        cases ends
  | case3 rest unclosed =>
      rw [Nat.add_comm 1, List.take_succ_cons, List.take_length]
      refine .openComment ?_ ⟨rest, rfl⟩
      apply Unmatched.of_family comment
      intro rule start lexeme same reads isStart
      have family : rule.family = .comment := (Option.some.inj same).symm
      rcases comment_of_reads family reads with ⟨line, ending, rfl, -, -⟩ | ⟨inner, rfl, -⟩
      · cases (behind_slash isStart).1
      · have later := (behind_slash isStart).2
        rcases comment_end_cases rest with ⟨body, after, -, -, ends⟩ | ⟨absent, -⟩
        · rw [unclosed] at ends
          cases ends
        · have closing := List.infix_append' inner ['*', '/'] []
          exact absent (closing.trans (by simpa using later.isInfix))
  | case4 _ notLine notBlock =>
      refine .stray rfl ?_ ?_ ?_
      · apply Unmatched.of_family comment
        intro rule start lexeme same reads isStart
        have family : rule.family = .comment := (Option.some.inj same).symm
        rcases comment_of_reads family reads with ⟨line, ending, rfl, -, -⟩ | ⟨inner, rfl, -⟩
        · obtain ⟨-, tail, rfl⟩ := List.cons_prefix_cons.1 isStart
          exact notLine _ rfl
        · obtain ⟨-, tail, rfl⟩ := List.cons_prefix_cons.1 isStart
          exact notBlock _ rfl
      · intro opens
        obtain ⟨-, tail, rfl⟩ := List.cons_prefix_cons.1 opens
        exact notBlock _ rfl
      · rintro (opens | opens)
        · cases (List.cons_prefix_cons.1 opens).1
        · cases (List.cons_prefix_cons.1 opens).1

/-- The two literals differ only in their delimiter and in what their content is read as. -/
theorem delimited_longest_match {delimiter : Char} {token : String → Token} (rule : Rule)
    (known : Rule.Family.ofChar? delimiter = some rule.family)
    (whole : ∀ content : List Char, delimiter ∉ content →
      rule.Reads (delimiter :: (content ++ [delimiter])) (.token (token (String.ofList content))))
    (only : ∀ (other : Rule) (text : List Char) (lexeme : Lexeme), other.family = rule.family →
      other.Reads text lexeme →
        ∃ content, text = delimiter :: (content ++ [delimiter]) ∧ delimiter ∉ content)
    (literal : ['"'] = [delimiter] ∨ ['\x60'] = [delimiter]) (notName : rule ≠ .identifier)
    (rest : List Char) :
    LongestMatch (delimiter :: rest)
      ⟨(delimited delimiter token rest).lexeme,
        delimiter :: rest.take (delimited delimiter token rest).further⟩ := by
  obtain ⟨content, outside, rfl, taken, unquoted, ends, longest⟩ := exists_before delimiter rest
  rcases ends with rfl | ⟨after, rfl⟩
  · rw [List.append_nil] at taken ⊢
    have found : delimited delimiter token content = ⟨.malformed .unexpected, content.length⟩ := by
      simp [delimited, taken]
    rw [found, List.take_length]
    refine .openLiteral ?_ ?_
    · apply Unmatched.of_family known
      intro other start lexeme same reads isStart
      obtain ⟨inner, rfl, -⟩ := only other start lexeme (Option.some.inj same).symm reads
      obtain ⟨-, later⟩ := List.cons_prefix_cons.1 isStart
      have member : delimiter ∈ content := later.subset (by simp)
      exact unquoted member
    · exact literal.imp (fun same => ⟨content, by rw [same]; rfl⟩)
        (fun same => ⟨content, by rw [same]; rfl⟩)
  · rw [delimited_append unquoted, List.take_length_add_append]
    apply LongestMatch.of_family rule (whole content unquoted)
    · exact ⟨after, by simp⟩
    · intro other longer lexeme same reads isStart
      obtain ⟨inner, rfl, single⟩ := only other longer lexeme same reads
      have innerStart := (List.prefix_append inner [delimiter]).trans
        (List.cons_prefix_cons.1 isStart).2
      have bound : inner.length ≤ content.length := longest inner single innerStart
      simpa using bound
    · intro isName
      exact absurd isName notName

theorem string_longest_match (rest : List Char) :
    LongestMatch ('"' :: rest)
      ⟨(delimited '"' .string rest).lexeme,
        '"' :: rest.take (delimited '"' .string rest).further⟩ := by
  apply delimited_longest_match .string rfl
  · exact fun content unquoted => .string unquoted
  · intro other text lexeme family reads
    cases reads with
    | string unquoted => exact ⟨_, rfl, unquoted⟩
    | _ => cases family
  · exact .inl rfl
  · exact fun isName => by cases isName

theorem uri_longest_match (rest : List Char) :
    LongestMatch ('\x60' :: rest)
      ⟨(delimited '\x60' .uri rest).lexeme,
        '\x60' :: rest.take (delimited '\x60' .uri rest).further⟩ := by
  apply delimited_longest_match .uri rfl
  · exact fun content unquoted => .uri unquoted
  · intro other text lexeme family reads
    cases reads with
    | uri unquoted => exact ⟨_, rfl, unquoted⟩
    | _ => cases family
  · exact .inr rfl
  · exact fun isName => by cases isName

theorem mark_of_reads {rule : Rule} {text : List Char} {lexeme : Lexeme}
    (family : rule.family = .punctuation) (reads : rule.Reads text lexeme) :
    ∃ mark : Punctuation, text = mark.spelling.toList := by
  cases reads with
  | punctuation mark => exact ⟨mark, rfl⟩
  | _ => cases family

theorem angle_longest_match (rest : List Char) :
    LongestMatch ('<' :: rest)
      ⟨(afterAngle rest).lexeme, '<' :: rest.take (afterAngle rest).further⟩ := by
  have punctuation : Rule.Family.ofChar? '<' = some .punctuation := rfl
  fun_cases afterAngle rest with
  | case1 rest =>
      apply LongestMatch.of_family (.punctuation .leftArrow)
      · exact .punctuation .leftArrow
      · exact ⟨rest, rfl⟩
      · intro other longer lexeme family reads isStart
        obtain ⟨mark, rfl⟩ := mark_of_reads family reads
        have short : mark.spelling.toList.length ≤ 2 := by cases mark <;> decide
        exact short
      · intro isName
        cases isName
  | case2 _ notArrow =>
      obtain ⟨noComment, noLiteral⟩ := not_opening_of_family rest punctuation
        (by decide) (by decide) (by decide)
      refine .stray rfl ?_ noComment noLiteral
      apply Unmatched.of_family punctuation
      intro rule start lexeme same reads isStart
      obtain ⟨mark, rfl⟩ := mark_of_reads (Option.some.inj same).symm reads
      cases mark with
      | leftArrow =>
          obtain ⟨-, tail, rfl⟩ := List.cons_prefix_cons.1 isStart
          exact notArrow tail rfl
      | _ => cases (List.cons_prefix_cons.1 isStart).1

theorem of_char_eq_some_iff {char : Char} {mark : Punctuation} :
    Punctuation.ofChar? char = some mark ↔ mark.spelling.toList = [char] := by
  constructor
  · intro known
    unfold Punctuation.ofChar? at known
    split at known <;> cases known <;> rfl
  · intro spelled
    cases mark <;> cases spelled <;> rfl

theorem single_longest_match {mark : Punctuation} (known : Punctuation.ofChar? first = some mark)
    (family : Rule.Family.ofChar? first = some .punctuation) :
    LongestMatch (first :: rest) ⟨.token (.punctuation mark), [first]⟩ := by
  have spelled : mark.spelling.toList = [first] := of_char_eq_some_iff.1 known
  apply LongestMatch.of_family (.punctuation mark)
  · have reads := Rule.Reads.punctuation mark
    rwa [spelled] at reads
  · exact ⟨rest, rfl⟩
  · intro other longer lexeme same reads isStart
    obtain ⟨otherMark, rfl⟩ := mark_of_reads same reads
    cases otherMark with
    | leftArrow =>
        cases (List.cons_prefix_cons.1 isStart).1
        cases known
    | _ => exact Nat.le_refl 1
  · intro isName
    cases isName

theorem unknown_longest_match (unknown : Rule.Family.ofChar? first = none) :
    LongestMatch (first :: rest) ⟨.malformed .unexpected, [first]⟩ := by
  obtain ⟨noComment, noLiteral⟩ := not_opening_of_family rest unknown
    (by decide) (by decide) (by decide)
  refine .stray rfl ?_ noComment noLiteral
  apply Unmatched.of_family unknown
  intro rule start lexeme same
  cases same

/-- What the reader finds at a place is the longest match there. -/
theorem next_longest_match (first : Char) (rest : List Char) :
    LongestMatch (first :: rest)
      ⟨(next first rest).lexeme, first :: rest.take (next first rest).further⟩ := by
  by_cases blank : isBlank first = true
  · have found : next first rest = ⟨.trivia .whitespace, (rest.takeWhile isBlank).length⟩ := by
      simp [next, blank]
    rw [found]
    exact blank_longest_match blank
  by_cases starts : isNameStart first = true
  · rw [next_of_name_start starts]
    exact word_longest_match starts
  by_cases digit : first.isDigit = true
  · rw [next_of_digit digit]
    exact digits_longest_match digit
  generalize same : next first rest = found
  unfold next at same
  rw [if_neg blank, if_neg starts, if_neg digit] at same
  split at same
  · subst same
    exact slash_longest_match rest
  · subst same
    exact sign_longest_match .plus
  · subst same
    exact sign_longest_match .minus
  · subst same
    exact angle_longest_match rest
  · subst same
    exact string_longest_match rest
  · subst same
    exact uri_longest_match rest
  · next notSlash notPlus notMinus notAngle notQuote notBacktick =>
      have family : Rule.Family.ofChar? first =
          (Punctuation.ofChar? first).map fun _ => .punctuation := by
        unfold Rule.Family.ofChar?
        rw [if_neg blank, if_neg starts, if_neg digit]
        split
        · exact (notSlash rfl).elim
        · exact (notPlus rfl).elim
        · exact (notMinus rfl).elim
        · exact (notAngle rfl).elim
        · exact (notQuote rfl).elim
        · exact (notBacktick rfl).elim
        · rfl
      split at same
      · next mark known =>
          subst same
          rw [known] at family
          exact single_longest_match known family
      · next unknown =>
          subst same
          rw [unknown] at family
          exact unknown_longest_match family

end Lexeme

end RhoFrontend
