import Mathlib.Data.List.Nodup
import RhoFrontend.Proofs.Reading.Continuation

/-!
What a message lists against what a state can go on with. The list at a state names exactly the
tokens that have a move there, except for the literals, and the descriptions of two things that are
listed never agree, so nothing is lost when the list becomes text.
-/

namespace RhoFrontend.Reading

open Grammar
open Token (mark word)

/-- Tokens that stand for themselves: there is one text for each. -/
def Fixed : Token → Prop
  | .keyword _ | .punctuation _ => True
  | _ => False

/-- Tokens that are a term on their own because they spell a value. -/
def Literal : Token → Prop
  | .keyword .trueValue | .keyword .falseValue | .integer _ | .string _ => True
  | _ => False

/-- Everything that a list can name. -/
def listable : List Expectation :=
  [.identifier, .uri, .endOfInput] ++
    [Keyword.nil, .receive, .new, .within, .lookup, .bundle].map Expectation.word ++
    [Punctuation.atSign, .bang, .openParen, .closeParen, .openBrace, .closeBrace, .leftArrow,
      .semicolon, .comma, .pipe].map Expectation.mark

theorem mem_listable_iff {expectation : Expectation} : expectation ∈ listable ↔
    (∃ token, Fixed token ∧ ¬ Literal token ∧ expectation = .token token) ∨
      expectation = .identifier ∨ expectation = .uri ∨ expectation = .endOfInput := by
  cases expectation with
  | token token =>
      cases token with
      | keyword keyword =>
          cases keyword <;> simp [listable, Expectation.word, Expectation.mark, Fixed, Literal]
      | punctuation punctuation =>
          cases punctuation <;> simp [listable, Expectation.word, Expectation.mark, Fixed, Literal]
      | _ => simp [listable, Expectation.word, Expectation.mark, Fixed]
  | _ => simp [listable]

section

open Expectation

def expectationLists : List (List Expectation) :=
  [[mark .atSign, word .nil, word .bundle, word .receive, word .lookup, word .new],
    [mark .pipe, .endOfInput], [mark .bang, mark .pipe], [mark .closeParen, mark .pipe],
    [mark .closeParen, mark .semicolon, mark .pipe], [mark .pipe, mark .closeBrace],
    [mark .openParen, mark .comma, word .within], [mark .comma, word .within], [mark .openParen],
    [mark .closeParen], [mark .openBrace], [mark .leftArrow], [mark .atSign], [.identifier], [.uri]]

end

theorem expected_mem_lists (state : State) : state.expected ∈ expectationLists := by
  obtain ⟨suspended, operands, place⟩ := state
  cases place with
  | afterTerm latest =>
      cases suspended with
      | nil => simp [State.expected, expectationLists]
      | cons innermost outer =>
          obtain ⟨before, construct⟩ := innermost
          cases construct <;> simp [State.expected, Construct.expected, expectationLists]
  | afterName binder earlier name =>
      cases binder <;> simp [State.expected, expectationLists]
  | _ => simp [State.expected, expectationLists]

theorem expected_ne_nil (state : State) : state.expected ≠ [] := by
  have nonempty : ∀ list ∈ expectationLists, list ≠ [] := by decide
  exact nonempty _ (expected_mem_lists state)

theorem expected_listable {state : State} {expectation : Expectation}
    (member : expectation ∈ state.expected) : expectation ∈ listable := by
  have listed : ∀ list ∈ expectationLists, ∀ item ∈ list, item ∈ listable := by decide
  exact listed _ (expected_mem_lists state) _ member

/-- Texts are compared byte by byte in their UTF-8 form. -/
def Precedes (left right : String) : Prop := left.toUTF8.data.toList < right.toUTF8.data.toList

instance : DecidableRel Precedes := fun left right =>
  inferInstanceAs (Decidable (left.toUTF8.data.toList < right.toUTF8.data.toList))

theorem expected_sorted (state : State) :
    (state.expected.map Expectation.describe).Pairwise Precedes := by
  have sorted : ∀ list ∈ expectationLists,
      (list.map Expectation.describe).Pairwise Precedes := by decide
  exact sorted _ (expected_mem_lists state)

theorem describe_injective {left right : Expectation} (leftListed : left ∈ listable)
    (rightListed : right ∈ listable) (same : left.describe = right.describe) : left = right := by
  have distinct : (listable.map Expectation.describe).Nodup := by decide
  exact List.inj_on_of_nodup_map distinct leftListed rightListed same

theorem describe_mem_expected_iff {state : State} {expectation : Expectation}
    (listed : expectation ∈ listable) :
    expectation.describe ∈ state.expected.map Expectation.describe ↔
      expectation ∈ state.expected := by
  constructor
  · intro member
    obtain ⟨other, present, same⟩ := List.mem_map.1 member
    rwa [← describe_injective (expected_listable present) listed same]
  · exact List.mem_map_of_mem

/-- The first three characters of the description of a literal. -/
def literalOpenings : List (List Char) :=
  [['\x60', 't', 'r'], ['\x60', 'f', 'a'], ['i', 'n', 't'], ['s', 't', 'r']]

theorem describe_literal_opening {token : Token} (literal : Literal token) :
    token.describe.toList.take 3 ∈ literalOpenings := by
  cases token with
  | keyword keyword =>
      cases keyword <;>
        first
          | exact literal.elim
          | simp [literalOpenings, Token.describe, Keyword.spelling]
  | integer value => simp [literalOpenings, Token.describe]
  | string content => simp [literalOpenings, Token.describe]
  | _ => exact literal.elim

theorem describe_literal_not_mem {state : State} {token : Token} (literal : Literal token) :
    token.describe ∉ state.expected.map Expectation.describe := by
  have otherOpenings : ∀ expectation ∈ listable,
      expectation.describe.toList.take 3 ∉ literalOpenings := by decide
  intro member
  obtain ⟨expectation, present, same⟩ := List.mem_map.1 member
  apply otherOpenings expectation (expected_listable present)
  rw [same]
  exact describe_literal_opening literal

/-- How a list names a token that can come next. -/
def naming : Token → Expectation
  | .identifier _ => .identifier
  | .uri _ => .uri
  | token => .token token

theorem step_leaf_iff {state : State} {token : Token} (leaf : Literal token ∨ token = word .nil) :
    (∃ next, state.step token = some next) ↔ state.place = .term := by
  constructor
  · rintro ⟨next, stepped⟩
    cases moves_of_step stepped with
    | binder binder => cases binder <;> simp [Literal, binderWord, word] at leaf
    | _ => first | rfl | simp [Literal, mark, word] at leaf
  · intro atTerm
    obtain ⟨suspended, operands, place⟩ := state
    cases atTerm
    rcases leaf with literal | rfl
    · cases token with
      | keyword keyword => cases keyword <;> first | exact literal.elim | exact ⟨_, rfl⟩
      | integer value => exact ⟨_, rfl⟩
      | string content => exact ⟨_, rfl⟩
      | _ => exact literal.elim
    · exact ⟨_, rfl⟩

private theorem naming_mem_after_term_iff {suspended : List Suspended}
    {operands : List ProcessTree} {latest : ProcessTree} {token : Token} :
    naming token ∈ State.expected ⟨suspended, operands, .afterTerm latest⟩ ↔
      ∃ next, State.step ⟨suspended, operands, .afterTerm latest⟩ token = some next := by
  rcases suspended with - | ⟨⟨before, construct⟩, outer⟩
  · rcases token with _ | punctuation | _
    case punctuation =>
      cases punctuation <;>
        simp [naming, State.expected, State.step, State.continueChain, Expectation.mark]
    all_goals simp [naming, State.expected, State.step, State.continueChain, Expectation.mark]
  · rcases token with _ | punctuation | _
    case punctuation =>
      cases construct <;> cases punctuation <;>
        simp [naming, State.expected, Construct.expected, Construct.close, State.step,
          State.continueChain, Expectation.mark]
    all_goals
      cases construct <;>
        simp [naming, State.expected, Construct.expected, State.step, State.continueChain,
          Expectation.mark]

/-- A list names a token exactly if the token can come next, the literals apart. -/
theorem naming_mem_expected_iff {state : State} {token : Token} (notLiteral : ¬ Literal token) :
    naming token ∈ state.expected ↔ ∃ next, state.step token = some next := by
  obtain ⟨suspended, operands, place⟩ := state
  cases place with
  | afterTerm latest => exact naming_mem_after_term_iff
  | term =>
      rcases token with keyword | punctuation | _
      case keyword =>
        cases keyword <;>
          simp [naming, Literal, State.expected, State.step, State.startTerm, State.startWord,
            Expectation.mark, Expectation.word] at notLiteral ⊢
      case punctuation =>
        cases punctuation <;>
          simp [naming, State.expected, State.step, State.startTerm, Expectation.mark,
            Expectation.word]
      all_goals
        simp [naming, Literal, State.expected, State.step, State.startTerm, Expectation.mark,
          Expectation.word] at notLiteral ⊢
  | afterName binder earlier name =>
      rcases token with keyword | punctuation | _
      case keyword =>
        cases binder <;> cases keyword <;>
          simp [naming, State.expected, State.step, Expectation.mark, Expectation.word]
      case punctuation =>
        cases binder <;> cases punctuation <;>
          simp [naming, State.expected, State.step, Expectation.mark, Expectation.word]
      all_goals
        cases binder <;>
          simp [naming, State.expected, State.step, Expectation.mark, Expectation.word]
  | _ =>
      rcases token with keyword | punctuation | _
      case keyword =>
        cases keyword <;>
          simp [naming, State.expected, State.step, Expectation.mark, Expectation.word]
      case punctuation =>
        cases punctuation <;>
          simp [naming, State.expected, State.step, Expectation.mark, Expectation.word]
      all_goals simp [naming, State.expected, State.step, Expectation.mark, Expectation.word]

theorem end_mem_expected_iff {state : State} :
    .endOfInput ∈ state.expected ↔ ∃ tree, state.finish? = some tree := by
  obtain ⟨suspended, operands, place⟩ := state
  cases place with
  | afterTerm latest =>
      rcases suspended with - | ⟨⟨before, construct⟩, outer⟩
      · simp [State.expected, State.finish?, Expectation.mark]
      · cases construct <;>
          simp [State.expected, Construct.expected, State.finish?, Expectation.mark]
  | afterName binder earlier name =>
      cases binder <;> simp [State.expected, State.finish?, Expectation.mark, Expectation.word]
  | _ => simp [State.expected, State.finish?, Expectation.mark, Expectation.word]

end RhoFrontend.Reading
