import RhoFrontend.Proofs.Reading.Completeness
import RhoFrontend.Proofs.Reading.Soundness

/-!
No reading is a dead end: from any state some tokens lead to a place where the input may end. So a
prefix of tokens can be continued to a program exactly if it is read, and a token can follow it
exactly if the state that it leads to has a move for that token.
-/

namespace RhoFrontend.Reading

open Grammar
open Token (mark word)

def nilBlock : List Token := [mark .openBrace, word .nil, mark .closeBrace]

/-- Tokens that lead from a place to the end of its term. -/
def Place.completion : Place → List Token
  | .term => [word .nil]
  | .afterTerm _ => []
  | .messageOpening _ => [mark .openParen, word .nil, mark .closeParen]
  | .actionsOpening =>
      mark .openParen :: .identifier "x" :: mark .leftArrow :: mark .atSign :: word .nil ::
        mark .closeParen :: nilBlock
  | .actionName _ =>
      .identifier "x" :: mark .leftArrow :: mark .atSign :: word .nil :: mark .closeParen ::
        nilBlock
  | .actionArrow _ _ =>
      mark .leftArrow :: mark .atSign :: word .nil :: mark .closeParen :: nilBlock
  | .actionAt _ _ => mark .atSign :: word .nil :: mark .closeParen :: nilBlock
  | .blockOpening _ => nilBlock
  | .declaredName _ _ =>
      .identifier "x" :: mark .openParen :: .uri "" :: mark .closeParen :: word .within :: nilBlock
  | .afterName _ _ _ => mark .openParen :: .uri "" :: mark .closeParen :: word .within :: nilBlock
  | .uri _ _ _ => .uri "" :: mark .closeParen :: word .within :: nilBlock
  | .afterUri _ _ => mark .closeParen :: word .within :: nilBlock
  | .afterDeclared _ _ => word .within :: nilBlock

/-- Tokens that lead from the end of the process inside a construct to the end of the construct. -/
def Construct.completion : Construct → List Token
  | .sendChannel => [mark .bang, mark .openParen, word .nil, mark .closeParen]
  | .sendMessage _ => [mark .closeParen]
  | .actionChannel _ _ => mark .closeParen :: nilBlock
  | .block _ => [mark .closeBrace]

theorem run_place_completion (suspended : List Suspended) (operands : List ProcessTree)
    (place : Place) : ∃ latest, State.run ⟨suspended, operands, place⟩ place.completion =
      some ⟨suspended, operands, .afterTerm latest⟩ := by
  cases place with
  | afterName binder earlier name => cases binder <;> exact ⟨_, rfl⟩
  | _ => exact ⟨_, rfl⟩

theorem run_construct_completion (outer : List Suspended) (operands inner : List ProcessTree)
    (construct : Construct) (latest : ProcessTree) :
    ∃ whole, State.run ⟨⟨operands, construct⟩ :: outer, inner, .afterTerm latest⟩
      construct.completion = some ⟨outer, operands, .afterTerm whole⟩ := by
  cases construct <;> exact ⟨_, rfl⟩

/-- After a term the open constructs are completed from the innermost one outwards. -/
private theorem run_outwards (suspended : List Suspended) (operands : List ProcessTree)
    (latest : ProcessTree) : ∃ continuation last tree,
      State.run ⟨suspended, operands, .afterTerm latest⟩ continuation = some last ∧
        last.finish? = some tree := by
  induction suspended generalizing operands latest with
  | nil => exact ⟨[], _, _, rfl, rfl⟩
  | cons innermost outer induction =>
      obtain ⟨before, construct⟩ := innermost
      obtain ⟨whole, closed⟩ := run_construct_completion outer before operands construct latest
      obtain ⟨continuation, last, tree, run, finished⟩ := induction before whole
      refine ⟨construct.completion ++ continuation, last, tree, ?_, finished⟩
      rw [State.run_trans continuation closed, run]

theorem exists_completion (state : State) : ∃ continuation last tree,
    state.run continuation = some last ∧ last.finish? = some tree := by
  obtain ⟨suspended, operands, place⟩ := state
  obtain ⟨latest, reached⟩ := run_place_completion suspended operands place
  obtain ⟨continuation, last, tree, run, finished⟩ := run_outwards suspended operands latest
  refine ⟨place.completion ++ continuation, last, tree, ?_, finished⟩
  rw [State.run_trans continuation reached, run]

theorem derives_iff_run {tree : ProcessTree} {tokens : List Token} :
    Derives (.process tree) tokens ↔
      ∃ last, State.start.run tokens = some last ∧ last.finish? = some tree := by
  constructor
  · exact run_of_derives
  · rintro ⟨last, run, finished⟩
    exact derives_of_run run finished

theorem viable_iff_run {tokens : List Token} :
    Viable tokens ↔ ∃ state, State.start.run tokens = some state := by
  constructor
  · rintro ⟨continuation, tree, derived⟩
    obtain ⟨last, run, -⟩ := run_of_derives derived
    rw [State.run_append] at run
    obtain ⟨state, reached, -⟩ := Option.bind_eq_some_iff.1 run
    exact ⟨state, reached⟩
  · rintro ⟨state, reached⟩
    obtain ⟨continuation, last, tree, run, finished⟩ := exists_completion state
    refine ⟨continuation, tree, derives_of_run ?_ finished⟩
    rw [State.run_trans continuation reached, run]

section Reached

variable {tokens : List Token} {state : State} (reached : State.start.run tokens = some state)

include reached

theorem viable_append_iff (token : Token) :
    Viable (tokens ++ [token]) ↔ ∃ next, state.step token = some next := by
  rw [viable_iff_run, State.run_trans [token] reached]
  constructor
  · rintro ⟨last, run⟩
    obtain ⟨next, stepped, -⟩ := Option.bind_eq_some_iff.1 run
    exact ⟨next, stepped⟩
  · rintro ⟨next, stepped⟩
    exact ⟨next, run_of_moves (moves_of_step stepped) []⟩

theorem complete_iff_finish : Complete tokens ↔ ∃ tree, state.finish? = some tree := by
  constructor
  · rintro ⟨tree, derived⟩
    obtain ⟨last, run, finished⟩ := run_of_derives derived
    rw [reached] at run
    cases run
    exact ⟨tree, finished⟩
  · rintro ⟨tree, finished⟩
    exact ⟨tree, derives_of_run reached finished⟩

end Reached

end RhoFrontend.Reading
