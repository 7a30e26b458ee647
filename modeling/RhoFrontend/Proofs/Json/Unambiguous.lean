import RhoFrontend.Proofs.Json.Documents

/-!
However deep a document is nested, a text of it holds no other one: the tokens of a text are
determined, and a document can be told from the tokens it starts with.
-/

namespace RhoFrontend.Json

/-- The token that a document starts with. It tells what kind of document it is, and says all of one
that is no container. -/
def firstToken : Json → Token
  | .null => .null
  | .bool value => .bool value
  | .integer value => .integer value
  | .decimal literal => .decimal literal
  | .string value => .string value
  | .array _ => .openBracket
  | .object _ => .openBrace

/-- The tokens behind the first one. -/
def laterTokens : Json → List Token
  | .null | .bool _ | .integer _ | .decimal _ | .string _ => []
  | .array [] => [.closeBracket]
  | .array (item :: items) => item.tokens ++ Json.laterItems items
  | .object [] => [.closeBrace]
  | .object (⟨name, value⟩ :: fields) =>
      .string name :: .colon :: (value.tokens ++ Json.laterFields fields)

theorem tokens_eq (document : Json) :
    document.tokens = firstToken document :: laterTokens document := by
  match document with
  | .null | .bool _ | .integer _ | .decimal _ | .string _ | .array [] | .array (_ :: _)
  | .object [] | .object (⟨_, _⟩ :: _) => rfl

theorem first_token_ne (document : Json) : firstToken document ≠ .closeBracket := by
  cases document <;> nofun

theorem exists_items {document : Json} (first : firstToken document = .openBracket) :
    ∃ items, document = .array items := by
  cases document <;> cases first
  exact ⟨_, rfl⟩

theorem exists_fields {document : Json} (first : firstToken document = .openBrace) :
    ∃ fields, document = .object fields := by
  cases document <;> cases first
  exact ⟨_, rfl⟩

mutual

theorem document_of_tokens (document other : Json) {rest otherRest : List Token}
    (same : document.tokens ++ rest = other.tokens ++ otherRest) :
    document = other ∧ rest = otherRest := by
  rw [tokens_eq document, tokens_eq other] at same
  simp only [List.cons_append, List.cons.injEq] at same
  obtain ⟨first, later⟩ := same
  match document with
  | .null | .bool _ | .integer _ | .decimal _ | .string _ =>
      cases other <;> cases first
      exact ⟨rfl, later⟩
  | .array items =>
      obtain ⟨others, rfl⟩ := exists_items first.symm
      match items, others with
      | [], [] => exact ⟨rfl, (List.cons.inj later).2⟩
      | [], item :: _ | item :: _, [] =>
          have opens := first_token_ne item
          simp [laterTokens, tokens_eq item, opens, opens.symm] at later
      | item :: items, otherItem :: others =>
          simp only [laterTokens, List.append_assoc] at later
          obtain ⟨rfl, behindItem⟩ := document_of_tokens item otherItem later
          obtain ⟨rfl, behind⟩ := items_of_tokens items others behindItem
          exact ⟨rfl, behind⟩
  | .object fields =>
      obtain ⟨others, rfl⟩ := exists_fields first.symm
      match fields, others with
      | [], [] => exact ⟨rfl, (List.cons.inj later).2⟩
      | [], ⟨_, _⟩ :: _ | ⟨_, _⟩ :: _, [] => simp [laterTokens] at later
      | ⟨name, value⟩ :: fields, ⟨otherName, otherValue⟩ :: others =>
          simp only [laterTokens, List.cons_append, List.append_assoc, List.cons.injEq,
            Token.string.injEq, true_and] at later
          obtain ⟨rfl, valueSame⟩ := later
          obtain ⟨rfl, behindValue⟩ := document_of_tokens value otherValue valueSame
          obtain ⟨rfl, behind⟩ := fields_of_tokens fields others behindValue
          exact ⟨rfl, behind⟩

theorem items_of_tokens (items others : List Json) {rest otherRest : List Token}
    (same : Json.laterItems items ++ rest = Json.laterItems others ++ otherRest) :
    items = others ∧ rest = otherRest := by
  match items, others with
  | [], [] => exact ⟨rfl, (List.cons.inj same).2⟩
  | [], _ :: _ | _ :: _, [] => cases same
  | item :: items, otherItem :: others =>
      simp only [Json.laterItems, List.cons_append, List.append_assoc, List.cons.injEq,
        true_and] at same
      obtain ⟨rfl, later⟩ := document_of_tokens item otherItem same
      obtain ⟨rfl, behind⟩ := items_of_tokens items others later
      exact ⟨rfl, behind⟩

theorem fields_of_tokens (fields others : List Field) {rest otherRest : List Token}
    (same : Json.laterFields fields ++ rest = Json.laterFields others ++ otherRest) :
    fields = others ∧ rest = otherRest := by
  match fields, others with
  | [], [] => exact ⟨rfl, (List.cons.inj same).2⟩
  | [], ⟨_, _⟩ :: _ | ⟨_, _⟩ :: _, [] => cases same
  | ⟨name, value⟩ :: fields, ⟨otherName, otherValue⟩ :: others =>
      simp only [Json.laterFields, List.cons_append, List.append_assoc, List.cons.injEq,
        Token.string.injEq, true_and] at same
      obtain ⟨rfl, valueSame⟩ := same
      obtain ⟨rfl, later⟩ := document_of_tokens value otherValue valueSame
      obtain ⟨rfl, behind⟩ := fields_of_tokens fields others later
      exact ⟨rfl, behind⟩

end

/-- A text that a document with finite numbers is written as holds no other one. -/
theorem document_of_written {document other : Json} {text : List Char}
    (written : document.WrittenAs text) (finite : document.NumbersFinite)
    (otherWritten : other.WrittenAs text) : other = document := by
  have read : Token.ofText? text = some document.tokens :=
    (Token.of_text_spaced written (apart_document document)).2
      ⟨rfl, (tokens_stay_finite_iff document).2 finite⟩
  have same := ((Token.of_text_spaced otherWritten (apart_document other)).1 read).1
  exact (document_of_tokens other document (congrArg (· ++ []) same.symm)).1

end RhoFrontend.Json
