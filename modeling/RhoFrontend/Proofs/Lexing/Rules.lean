import RhoFrontend.Proofs.Spelling

/-!
Longest match, said without the reader: the rules, the texts that each of them matches, and which
piece they cut off a text. The rules that can match at a place are told apart by the first
character there, so only rules of one family ever compete.
-/

namespace RhoFrontend

inductive Rule
  | whitespace
  | lineComment
  | blockComment
  | keyword (word : Keyword)
  | punctuation (mark : Punctuation)
  | integer
  | string
  | uri
  | identifier

/-- The texts that a rule matches, each with what it is read as. Digits are a match whatever their
value, but beyond 64 bits they are read as an error. -/
inductive Rule.Reads : Rule → List Char → Lexeme → Prop
  | whitespace {run : List Char} (nonempty : run ≠ [])
      (blank : ∀ char ∈ run, char ∈ [' ', '\t', '\r', '\n', '\x0c']) :
      Reads .whitespace run (.trivia .whitespace)
  | lineComment {body ending : List Char} (inLine : '\n' ∉ body)
      (ends : ending = [] ∨ ending = ['\n']) :
      Reads .lineComment ('/' :: '/' :: (body ++ ending)) (.trivia .lineComment)
  | blockComment {body : List Char} (first : ¬ ['*', '/'] <:+: body) :
      Reads .blockComment ('/' :: '*' :: (body ++ ['*', '/'])) (.trivia .blockComment)
  | keyword (word : Keyword) :
      Reads (.keyword word) word.spelling.toList (.token (.keyword word))
  | punctuation (mark : Punctuation) :
      Reads (.punctuation mark) mark.spelling.toList (.token (.punctuation mark))
  | integer {negative : Bool} {sign digits : List Char} {value : Int64}
      (signed : Token.Sign negative sign) (nonempty : digits ≠ [])
      (all : ∀ char ∈ digits, char.isDigit = true)
      (fits : value.toInt = Integer.valueOfDigits negative digits) :
      Reads .integer (sign ++ digits) (.token (.integer value))
  | integerRange {negative : Bool} {sign digits : List Char}
      (signed : Token.Sign negative sign) (nonempty : digits ≠ [])
      (all : ∀ char ∈ digits, char.isDigit = true)
      (beyond : ∀ value : Int64, value.toInt ≠ Integer.valueOfDigits negative digits) :
      Reads .integer (sign ++ digits) (.malformed .integerRange)
  | string {content : List Char} (unquoted : '"' ∉ content) :
      Reads .string ('"' :: (content ++ ['"'])) (.token (.string (String.ofList content)))
  | uri {content : List Char} (unquoted : '\x60' ∉ content) :
      Reads .uri ('\x60' :: (content ++ ['\x60'])) (.token (.uri (String.ofList content)))
  | identifier {first : Char} {rest : List Char}
      (starts : first.isAlpha = true ∨ first = '_')
      (parts : ∀ char ∈ rest, char.isAlphanum = true ∨ char = '_') :
      Reads .identifier (first :: rest) (.token (.identifier (String.ofList (first :: rest))))

/-- No text that a rule matches is at the start of this one. -/
def Unmatched (text : List Char) : Prop :=
  ∀ (rule : Rule) (start : List Char) (lexeme : Lexeme), rule.Reads start lexeme → ¬ start <+: text

def OpensComment (text : List Char) : Prop := ['/', '*'] <+: text

def OpensLiteral (text : List Char) : Prop := ['"'] <+: text ∨ ['\x60'] <+: text

/-- The piece that longest match cuts off a text. A keyword wins over a name of the same length.
Where no rule matches, something that was opened and never closed takes all that is left, and any
other character is an error alone. -/
inductive LongestMatch (text : List Char) : Piece → Prop
  | matched {rule : Rule} {piece : Piece} (reads : rule.Reads piece.text piece.lexeme)
      (start : piece.text <+: text)
      (longest : ∀ (other : Rule) (longer : List Char) (lexeme : Lexeme),
        other.Reads longer lexeme → longer <+: text → longer.length ≤ piece.text.length)
      (priority : rule = .identifier → ∀ word : Keyword, word.spelling.toList ≠ piece.text) :
      LongestMatch text piece
  | openComment (unmatched : Unmatched text) (opens : OpensComment text) :
      LongestMatch text ⟨.malformed .unclosedComment, text⟩
  | openLiteral (unmatched : Unmatched text) (opens : OpensLiteral text) :
      LongestMatch text ⟨.malformed .unexpected, text⟩
  | stray {first : Char} {rest : List Char} (same : text = first :: rest)
      (unmatched : Unmatched text) (noComment : ¬ OpensComment text)
      (noLiteral : ¬ OpensLiteral text) :
      LongestMatch text ⟨.malformed .unexpected, [first]⟩

/-- The text is cut into these pieces, each by longest match on all that is left. -/
inductive CutByLongestMatch : List Char → List Piece → Prop
  | finished : CutByLongestMatch [] []
  | piece {piece : Piece} {rest : List Char} {pieces : List Piece}
      (first : LongestMatch (piece.text ++ rest) piece) (others : CutByLongestMatch rest pieces) :
      CutByLongestMatch (piece.text ++ rest) (piece :: pieces)

/-! The first character of a text leaves only the rules of one family. -/

namespace Rule

inductive Family
  | whitespace
  | comment
  | word
  | punctuation
  | integer
  | string
  | uri
deriving DecidableEq

def family : Rule → Family
  | .whitespace => .whitespace
  | .lineComment | .blockComment => .comment
  | .keyword _ | .identifier => .word
  | .punctuation _ => .punctuation
  | .integer => .integer
  | .string => .string
  | .uri => .uri

def Family.ofChar? (first : Char) : Option Family :=
  if isBlank first then some .whitespace
  else if isNameStart first then some .word
  else if first.isDigit then some .integer
  else
    match first with
    | '/' => some .comment
    | '+' | '-' => some .integer
    | '<' => some .punctuation
    | '"' => some .string
    | '\x60' => some .uri
    | _ => (Punctuation.ofChar? first).map fun _ => .punctuation

theorem nonempty_of_reads {rule : Rule} {text : List Char} {lexeme : Lexeme}
    (reads : rule.Reads text lexeme) : text ≠ [] := by
  cases reads with
  | whitespace nonempty => exact nonempty
  | keyword word => cases word <;> decide
  | punctuation mark => cases mark <;> decide
  | integer signed nonempty | integerRange signed nonempty =>
      exact List.append_ne_nil_of_right_ne_nil _ nonempty
  | _ => exact List.cons_ne_nil _ _

theorem blank_iff (char : Char) :
    char ∈ [' ', '\t', '\r', '\n', '\x0c'] ↔ isBlank char = true := by
  simp [isBlank, or_assoc]

theorem name_start_iff (char : Char) :
    (char.isAlpha = true ∨ char = '_') ↔ isNameStart char = true := by
  simp [isNameStart]

theorem name_part_iff (char : Char) :
    (char.isAlphanum = true ∨ char = '_') ↔ isNamePart char = true := by
  simp [isNamePart]

theorem name_part_of_start {char : Char} (starts : isNameStart char = true) :
    isNamePart char = true := by
  rw [← name_start_iff] at starts
  rw [← name_part_iff]
  exact starts.imp_left fun alpha => by simp [Char.isAlphanum, alpha]

theorem family_of_digit {first : Char} (digit : first.isDigit = true) :
    Family.ofChar? first = some .integer := by
  simp [Family.ofChar?, Lexeme.not_blank_of_digit digit, Lexeme.not_name_start_of_digit digit,
    digit]

theorem family_of_name_start {first : Char} (starts : isNameStart first = true) :
    Family.ofChar? first = some .word := by
  simp [Family.ofChar?, Lexeme.not_blank_of_name_start starts, starts]

theorem family_of_integer {negative : Bool} {sign digits : List Char} {first : Char}
    {body : List Char} (signed : Token.Sign negative sign)
    (all : ∀ char ∈ digits, char.isDigit = true) (shape : first :: body = sign ++ digits) :
    Family.ofChar? first = some .integer := by
  cases signed with
  | absent =>
      have inside : first ∈ digits := by
        rw [← List.nil_append digits, ← shape]
        exact List.mem_cons_self
      exact family_of_digit (all first inside)
  | plus | minus =>
      cases shape
      rfl

/-- The keyword or the mark is known, so its first character is. -/
theorem family_of_reads {rule : Rule} {first : Char} {body : List Char} {lexeme : Lexeme}
    (reads : rule.Reads (first :: body) lexeme) : Family.ofChar? first = some rule.family := by
  generalize shape : first :: body = text at reads
  cases reads with
  | whitespace nonempty blank =>
      subst shape
      have blankFirst := (blank_iff first).1 (blank first List.mem_cons_self)
      simp [Family.ofChar?, blankFirst, family]
  | lineComment | blockComment | string | uri =>
      cases shape
      rfl
  | keyword word =>
      have same := congrArg List.head? shape
      cases word <;> cases same <;> rfl
  | punctuation mark =>
      have same := congrArg List.head? shape
      cases mark <;> cases same <;> rfl
  | integer signed nonempty all | integerRange signed nonempty all =>
      exact family_of_integer signed all shape
  | identifier starts =>
      cases shape
      exact family_of_name_start ((name_start_iff first).1 starts)

end Rule

/-! To know the longest match it is enough to look at the rules of the family. -/

section Families

variable {first : Char} {rest : List Char}

theorem family_of_reads_prefix {rule : Rule} {start : List Char} {lexeme : Lexeme}
    (reads : rule.Reads start lexeme) (inside : start <+: first :: rest) :
    Rule.Family.ofChar? first = some rule.family := by
  obtain ⟨head, body, rfl⟩ := List.exists_cons_of_ne_nil (Rule.nonempty_of_reads reads)
  obtain ⟨rfl, -⟩ := List.cons_prefix_cons.1 inside
  exact Rule.family_of_reads reads

theorem LongestMatch.of_family (rule : Rule) {piece : Piece}
    (reads : rule.Reads piece.text piece.lexeme) (start : piece.text <+: first :: rest)
    (longest : ∀ (other : Rule) (longer : List Char) (lexeme : Lexeme),
      other.family = rule.family → other.Reads longer lexeme → longer <+: first :: rest →
        longer.length ≤ piece.text.length)
    (priority : rule = .identifier → ∀ word : Keyword, word.spelling.toList ≠ piece.text) :
    LongestMatch (first :: rest) piece := by
  refine .matched reads start ?_ priority
  intro other longer lexeme otherReads inside
  have family := family_of_reads_prefix reads start
  have otherFamily := family_of_reads_prefix otherReads inside
  rw [family] at otherFamily
  exact longest other longer lexeme (Option.some.inj otherFamily).symm otherReads inside

theorem Unmatched.of_family {family : Option Rule.Family}
    (known : Rule.Family.ofChar? first = family)
    (none : ∀ (rule : Rule) (start : List Char) (lexeme : Lexeme), family = some rule.family →
      rule.Reads start lexeme → ¬ start <+: first :: rest) : Unmatched (first :: rest) := by
  intro rule start lexeme reads inside
  have family := family_of_reads_prefix reads inside
  exact none rule start lexeme (known.symm.trans family) reads inside

end Families

/-- A run cannot reach beyond the first character that does not belong to it. -/
theorem length_le_of_start {holds : Char → Bool} {start inside outside : List Char}
    (all : ∀ char ∈ start, holds char = true)
    (stops : ∀ char ∈ outside.head?, holds char = false)
    (isStart : start <+: inside ++ outside) : start.length ≤ inside.length := by
  induction inside generalizing start with
  | nil =>
      cases start with
      | nil => exact Nat.le_refl 0
      | cons head body =>
          obtain ⟨tail, rfl⟩ := isStart
          have holdsHead := all head List.mem_cons_self
          rw [stops head rfl] at holdsHead
          cases holdsHead
  | cons next inside induction =>
      cases start with
      | nil => exact Nat.zero_le _
      | cons head body =>
          obtain ⟨-, later⟩ := List.cons_prefix_cons.1 isStart
          have bound := induction (List.forall_mem_cons.1 all).2 later
          exact Nat.succ_le_succ bound

end RhoFrontend
