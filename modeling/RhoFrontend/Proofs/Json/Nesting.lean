import RhoFrontend.Proofs.Json.Lexing

/-!
How deep the arrays and objects of a text are nested, counted on the brackets and braces outside of
strings. It is the depth of the document that the text is written for.
-/

namespace RhoFrontend.Json

mutual

/-- The most containers that are open at once, when this many are open before the text. -/
def nestingOutside (depth : Nat) : List Char → Nat
  | [] => depth
  | '"' :: rest => nestingInside depth rest
  | '[' :: rest => nestingOutside (depth + 1) rest
  | '{' :: rest => nestingOutside (depth + 1) rest
  | ']' :: rest => max depth (nestingOutside (depth - 1) rest)
  | '}' :: rest => max depth (nestingOutside (depth - 1) rest)
  | _ :: rest => nestingOutside depth rest

/-- The same count when the text starts inside a string. -/
def nestingInside (depth : Nat) : List Char → Nat
  | [] => depth
  | '"' :: rest => nestingOutside depth rest
  | '\\' :: _ :: rest => nestingInside depth rest
  | _ :: rest => nestingInside depth rest

end

/-- The largest number of arrays and objects around one another in a text. -/
def nesting (text : List Char) : Nat := nestingOutside 0 text

/-- The same count on tokens, where nothing has to be skipped. -/
def tokenNesting (depth : Nat) : List Token → Nat
  | [] => depth
  | .openBracket :: rest | .openBrace :: rest => tokenNesting (depth + 1) rest
  | .closeBracket :: rest | .closeBrace :: rest => max depth (tokenNesting (depth - 1) rest)
  | _ :: rest => tokenNesting depth rest

/-- The characters that are counted or start a string. -/
def marks : List Char := ['"', '[', '{', ']', '}']

theorem nesting_outside_unmarked {text : List Char} (unmarked : ∀ char ∈ text, char ∉ marks)
    (depth : Nat) (rest : List Char) :
    nestingOutside depth (text ++ rest) = nestingOutside depth rest := by
  induction text with
  | nil => rfl
  | cons char text induction =>
      have ⟨first, others⟩ := List.forall_mem_cons.1 unmarked
      simp only [marks, List.mem_cons, List.not_mem_nil, or_false, not_or] at first
      rw [← induction others]
      simp [nestingOutside, first]

theorem nesting_inside_plain {char : Char} (notQuote : char ≠ '"') (notBackslash : char ≠ '\\')
    (depth : Nat) (rest : List Char) :
    nestingInside depth (char :: rest) = nestingInside depth rest := by
  simp [nestingInside, notBackslash]

theorem nesting_inside_code_unit {unit : Nat} {digits : List Char}
    (code : StringLiteral.CodeUnit unit digits) (depth : Nat) (rest : List Char) :
    nestingInside depth ('\\' :: 'u' :: (digits ++ rest)) = nestingInside depth rest := by
  have every : ∀ value < 16, Nat.digitChar value ≠ '"' ∧ Nat.digitChar value ≠ '\\' ∧
      (Nat.digitChar value).toUpper ≠ '"' ∧ (Nat.digitChar value).toUpper ≠ '\\' := by decide
  have skips {value : Nat} {char : Char} (digit : StringLiteral.IsHexDigit value char)
      (rest : List Char) : nestingInside depth (char :: rest) = nestingInside depth rest := by
    have ⟨bound, spelling⟩ := digit
    have ⟨lowerQuote, lowerBackslash, upperQuote, upperBackslash⟩ := every value bound
    rcases spelling with rfl | rfl
    · exact nesting_inside_plain lowerQuote lowerBackslash depth rest
    · exact nesting_inside_plain upperQuote upperBackslash depth rest
  obtain ⟨first, second, third, fourth⟩ := code
  rw [nestingInside]
  simp only [List.cons_append, List.nil_append, skips first, skips second, skips third,
    skips fourth]

theorem nesting_inside_spelled {content text : List Char}
    (spelled : StringLiteral.Spells content text) (depth : Nat) (rest : List Char) :
    nestingInside depth (text ++ '"' :: rest) = nestingOutside depth rest := by
  induction spelled with
  | nil => rfl
  | plain visible notQuote notBackslash _ induction =>
      rw [← induction]
      exact nesting_inside_plain notQuote notBackslash depth _
  | letter known _ induction =>
      rw [← induction]
      rfl
  | unit code _ induction =>
      simp only [List.cons_append, List.append_assoc, nesting_inside_code_unit code, induction]
  | pair highCode lowCode _ _ _ _ induction =>
      simp only [List.cons_append, List.append_assoc, nesting_inside_code_unit highCode,
        nesting_inside_code_unit lowCode, induction]

theorem unmarked_of_part {char : Char} (part : NumberLiteral.isPart char = true) :
    char ∉ marks := by
  intro marked
  simp only [marks, List.mem_cons, List.not_mem_nil, or_false] at marked
  rcases marked with rfl | rfl | rfl | rfl | rfl <;> cases part

theorem unmarked_of_blank {space : List Char} (blank : Token.Blank space) :
    ∀ char ∈ space, char ∉ marks := by
  intro char member marked
  simp only [marks, List.mem_cons, List.not_mem_nil, or_false] at marked
  rcases marked with rfl | rfl | rfl | rfl | rfl <;> exact absurd (blank _ member) (by decide)

/-- A token counts as in the list of tokens, whatever its spelling. -/
theorem nesting_of_spaced {tokens : List Token} {text : List Char}
    (spaced : Token.Spaced tokens text) (depth : Nat) :
    nestingOutside depth text = tokenNesting depth tokens := by
  induction spaced generalizing depth with
  | nil blank =>
      have skipped := nesting_outside_unmarked (unmarked_of_blank blank) depth []
      rwa [List.append_nil] at skipped
  | @cons token tokens space text rest blank spelled _ induction =>
      rw [nesting_outside_unmarked (unmarked_of_blank blank)]
      cases spelled with
      | openBracket | openBrace | comma | colon | null | trueValue | falseValue => exact induction _
      | closeBracket | closeBrace => exact congrArg (max depth) (induction _)
      | string spells =>
          rw [List.cons_append, List.append_assoc, nestingOutside]
          exact (nesting_inside_spelled spells depth rest).trans (induction depth)
      | integer spells | decimal spells =>
          have parts := NumberLiteral.parts_of_spelled spells
          rw [nesting_outside_unmarked fun char member => unmarked_of_part (parts char member)]
          exact induction depth

theorem le_token_nesting (tokens : List Token) (depth : Nat) :
    depth ≤ tokenNesting depth tokens := by
  fun_induction tokenNesting with
  | _ => omega

mutual

theorem nesting_of_document (document : Json) (depth : Nat) (rest : List Token) :
    tokenNesting depth (document.tokens ++ rest) =
      max (depth + document.depth) (tokenNesting depth rest) := by
  have onward := le_token_nesting rest depth
  match document with
  | .null | .bool _ | .integer _ | .decimal _ | .string _ =>
      rw [Json.depth, Nat.add_zero, Nat.max_eq_right onward]
      rfl
  | .array [] | .object [] =>
      simp only [Json.tokens, List.cons_append, List.nil_append, tokenNesting, Json.depth,
        Json.listDepth, Field.listDepth, Nat.add_zero, Nat.add_sub_cancel]
  | .array (item :: items) =>
      simp only [Json.tokens, List.cons_append, List.append_assoc, tokenNesting, Json.depth,
        Json.listDepth, nesting_of_document item, nesting_of_later_items items]
      omega
  | .object (⟨name, value⟩ :: fields) =>
      simp only [Json.tokens, List.cons_append, List.append_assoc, tokenNesting, Json.depth,
        Field.listDepth, nesting_of_document value, nesting_of_later_fields fields]
      omega

theorem nesting_of_later_items (items : List Json) (depth : Nat) (rest : List Token) :
    tokenNesting (depth + 1) (Json.laterItems items ++ rest) =
      max (depth + 1 + Json.listDepth items) (tokenNesting depth rest) := by
  match items with
  | [] => rfl
  | item :: items =>
      simp only [Json.laterItems, List.cons_append, List.append_assoc, tokenNesting,
        Json.listDepth, nesting_of_document item, nesting_of_later_items items]
      omega

theorem nesting_of_later_fields (fields : List Field) (depth : Nat) (rest : List Token) :
    tokenNesting (depth + 1) (Json.laterFields fields ++ rest) =
      max (depth + 1 + Field.listDepth fields) (tokenNesting depth rest) := by
  match fields with
  | [] => rfl
  | ⟨name, value⟩ :: fields =>
      simp only [Json.laterFields, List.cons_append, List.append_assoc, tokenNesting,
        Field.listDepth, nesting_of_document value, nesting_of_later_fields fields]
      omega

end

theorem nesting_of_written {document : Json} {text : List Char}
    (written : document.WrittenAs text) : nesting text = document.depth := by
  have counted := nesting_of_document document 0 []
  rw [List.append_nil, tokenNesting] at counted
  rw [nesting, nesting_of_spaced written, counted]
  omega

end RhoFrontend.Json
