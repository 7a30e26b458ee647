import RhoFrontend.Proofs.Lexing.Layout
import RhoFrontend.Proofs.Printing.Tokens

/-!
Texts that can be put one behind the other. A chunk is read as the same tokens wherever it begins
and whatever comes behind it, so chunks in a row are read as the tokens of all of them. A word is
not a chunk, because the text behind it may extend it, but with a chunk behind that does not it is
part of one. A source that ends in an open comment is one as soon as it has a newline behind it.
-/

namespace RhoFrontend

open Token (mark word)

/-- The text is read as these tokens, wherever it begins and whatever comes behind it. -/
def Chunk (options : Options) (text : List Char) (tokens : List Token) : Prop :=
  ∀ offset, ∃ spanned : List SpannedToken, spanned.map SpannedToken.token = tokens ∧
    ∀ rest, SpannedToken.ofTextAt options offset (text ++ rest) =
      (SpannedToken.ofTextAt options (offset + byteLength text) rest).map (spanned ++ ·)

/-- The text is read as these tokens, wherever it begins, if nothing comes behind it. -/
def Ending (options : Options) (text : List Char) (tokens : List Token) : Prop :=
  ∀ offset, ∃ spanned : List SpannedToken, spanned.map SpannedToken.token = tokens ∧
    SpannedToken.ofTextAt options offset text = .ok spanned

namespace Chunk

variable {options : Options} {text later : List Char} {tokens others : List Token}

theorem append (first : Chunk options text tokens) (second : Chunk options later others) :
    Chunk options (text ++ later) (tokens ++ others) := by
  intro offset
  obtain ⟨spanned, same, read⟩ := first offset
  obtain ⟨laterSpanned, laterSame, laterRead⟩ := second (offset + byteLength text)
  refine ⟨spanned ++ laterSpanned, ?_, ?_⟩
  · rw [List.map_append, same, laterSame]
  · intro rest
    rw [List.append_assoc, read, laterRead, byte_length_append, ← Nat.add_assoc]
    cases SpannedToken.ofTextAt options (offset + byteLength text + byteLength later) rest with
    | error error => rfl
    | ok rest => simp [Except.map]

theorem before (first : Chunk options text tokens) (second : Ending options later others) :
    Ending options (text ++ later) (tokens ++ others) := by
  intro offset
  obtain ⟨spanned, same, read⟩ := first offset
  obtain ⟨laterSpanned, laterSame, laterRead⟩ := second (offset + byteLength text)
  refine ⟨spanned ++ laterSpanned, ?_, ?_⟩
  · rw [List.map_append, same, laterSame]
  · rw [read, laterRead]
    rfl

theorem ending (chunk : Chunk options text tokens) : Ending options text tokens := by
  intro offset
  obtain ⟨spanned, same, read⟩ := chunk offset
  have alone := read []
  rw [SpannedToken.of_text_at_nil, Except.map, List.append_nil, List.append_nil] at alone
  exact ⟨spanned, same, alone⟩

theorem of_trivia (trivia : TriviaText text) : Chunk options text [] := by
  intro offset
  refine ⟨[], rfl, ?_⟩
  intro rest
  rw [SpannedToken.behind_nothing]
  exact SpannedToken.of_text_at_trivia_text trivia

theorem of_token {token : Token} (spelled : token.Spelled text)
    (ends : ∀ char, token.takes char = false) : Chunk options text [token] := by
  intro offset
  refine ⟨[⟨token, ⟨offset, offset + byteLength text⟩⟩], rfl, ?_⟩
  intro rest
  exact SpannedToken.of_text_at_spelled spelled fun char _ => ends char

theorem of_mark (punctuation : Punctuation) :
    Chunk options punctuation.spelling.toList [mark punctuation] :=
  of_token (Token.mark_reads_back punctuation) fun _ => rfl

theorem of_uri {content : String} (unquoted : '\x60' ∉ content.toList) :
    Chunk options ('\x60' :: (content.toList ++ ['\x60'])) [.uri content] :=
  of_token (Token.uri_reads_back unquoted) fun _ => rfl

/-- A token that the chunk behind it does not extend makes one chunk with it. -/
theorem token_before {token : Token} (spelled : token.Spelled text)
    (chunk : Chunk options later others)
    (ends : ∃ next ∈ later.head?, token.takes next = false) :
    Chunk options (text ++ later) (token :: others) := by
  obtain ⟨next, isNext, foreign⟩ := ends
  obtain ⟨body, rfl⟩ := List.head?_eq_some_iff.1 isNext
  intro offset
  obtain ⟨spanned, same, read⟩ := chunk (offset + byteLength text)
  refine ⟨⟨token, ⟨offset, offset + byteLength text⟩⟩ :: spanned, ?_, ?_⟩
  · rw [List.map_cons, same]
  · intro rest
    have endsNow : token.EndsBefore (next :: body ++ rest) := by
      intro char starts
      cases starts
      exact foreign
    rw [List.append_assoc, SpannedToken.of_text_at_spelled spelled endsNow, read,
      byte_length_append, ← Nat.add_assoc]
    cases SpannedToken.ofTextAt options (offset + byteLength text + byteLength (next :: body))
      rest <;> rfl

theorem word_before (keyword : Keyword) (chunk : Chunk options later others)
    (ends : ∃ next ∈ later.head?, isNamePart next = false) :
    Chunk options (keyword.spelling.toList ++ later) (word keyword :: others) :=
  token_before (Token.word_reads_back keyword) chunk ends

theorem name_before {name : String} (readsBack : (Token.identifier name).ReadsBack)
    (chunk : Chunk options later others) (ends : ∃ next ∈ later.head?, isNamePart next = false) :
    Chunk options (name.toList ++ later) (.identifier name :: others) :=
  token_before readsBack chunk ends

/-- A newline makes a chunk of every source without a lexical error. -/
theorem of_source {source : List Char} {spanned : List SpannedToken}
    (lexed : SpannedToken.ofSource {} source = .ok spanned) :
    Chunk options (source ++ ['\n']) (spanned.map SpannedToken.token) := by
  intro offset
  have moved := SpannedToken.of_text_at_moved lexed offset
  rw [Nat.zero_add] at moved
  refine ⟨spanned.map (SpannedToken.moved offset), ?_, ?_⟩
  · rw [List.map_map]
    rfl
  · intro rest
    rw [List.append_assoc, byte_length_append, ← Nat.add_assoc]
    exact (layout_of_text_at moved).read_before_newline options rest

/-- Items are joined by one argument, whatever the last one of them is followed by. -/
theorem joined {Item : Type} {ends : List Char → List Token → Prop}
    (behind : ∀ {text later : List Char} {tokens others : List Token},
      Chunk options text tokens → ends later others → ends (text ++ later) (tokens ++ others))
    {item : Item → List Char} {meaning : Item → List Token} {separator ending : List Char}
    {sign : Token} {close : List Token} {items : List Item} (nonempty : items ≠ [])
    (more : ∀ each ∈ items, Chunk options (item each ++ separator) (meaning each ++ [sign]))
    (last : ∀ each ∈ items, ends (item each ++ ending) (meaning each ++ close)) :
    ends (List.intercalate separator (items.map item) ++ ending)
      (Token.joined sign (items.map meaning) ++ close) := by
  induction items with
  | nil => exact absurd rfl nonempty
  | cons first rest induction =>
      obtain ⟨firstMore, restMore⟩ := List.forall_mem_cons.1 more
      obtain ⟨firstLast, restLast⟩ := List.forall_mem_cons.1 last
      cases rest with
      | nil =>
          rw [List.map_singleton, List.map_singleton, List.intercalate_singleton]
          exact firstLast
      | cons second rest =>
          have tail := induction (List.cons_ne_nil second rest) restMore restLast
          have whole := behind firstMore tail
          simp only [List.map_cons] at whole ⊢
          rw [List.intercalate_cons_cons, Token.joined]
          simpa only [List.append_assoc, List.cons_append, List.nil_append] using whole

end Chunk

theorem Ending.of_source {source : List Char} {spanned : List SpannedToken}
    (lexed : SpannedToken.ofSource {} source = .ok spanned) :
    Ending {} source (spanned.map SpannedToken.token) := by
  intro offset
  have moved := SpannedToken.of_text_at_moved lexed offset
  rw [Nat.zero_add] at moved
  refine ⟨_, ?_, moved⟩
  rw [List.map_map]
  rfl

end RhoFrontend
