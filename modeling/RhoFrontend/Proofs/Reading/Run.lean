import RhoFrontend.Parser
import RhoFrontend.Proofs.Grammar

/-!
Reading as steps and runs. `Moves` lists everything that one token can do to a reading, and each
fact about what a run keeps is proved for one move first. A run either takes all tokens or stops at
the first one that has no move.
-/

namespace RhoFrontend.Reading

open Grammar (binderWord)
open Token (mark word)

/-- The state after all tokens, if each of them can stand where it is. -/
def State.run (state : State) : List Token → Option State
  | [] => some state
  | token :: rest => (state.step token).bind fun next => next.run rest

@[simp] theorem State.run_nil (state : State) : state.run [] = some state := rfl

@[simp] theorem State.run_cons (state : State) (token : Token) (rest : List Token) :
    state.run (token :: rest) = (state.step token).bind fun next => next.run rest := rfl

theorem State.run_append (state : State) (first rest : List Token) :
    state.run (first ++ rest) = (state.run first).bind fun next => next.run rest := by
  induction first generalizing state with
  | nil => rfl
  | cons token first induction =>
      simp only [List.cons_append, run_cons, Option.bind_assoc, induction]

theorem State.run_trans {state middle : State} {tokens : List Token} (rest : List Token)
    (reached : state.run tokens = some middle) : state.run (tokens ++ rest) = middle.run rest := by
  rw [run_append, reached, Option.bind_some]

inductive Moves : State → Token → State → Prop
  | nil {suspended operands} :
      Moves ⟨suspended, operands, .term⟩ (word .nil) ⟨suspended, operands, .afterTerm .nil⟩
  | trueValue {suspended operands} :
      Moves ⟨suspended, operands, .term⟩ (word .trueValue)
        ⟨suspended, operands, .afterTerm (.ground (.bool true))⟩
  | falseValue {suspended operands} :
      Moves ⟨suspended, operands, .term⟩ (word .falseValue)
        ⟨suspended, operands, .afterTerm (.ground (.bool false))⟩
  | integer {suspended operands value} :
      Moves ⟨suspended, operands, .term⟩ (.integer value)
        ⟨suspended, operands, .afterTerm (.ground (.int value))⟩
  | string {suspended operands content} :
      Moves ⟨suspended, operands, .term⟩ (.string content)
        ⟨suspended, operands, .afterTerm (.ground (.string content))⟩
  | sendChannel {suspended operands} :
      Moves ⟨suspended, operands, .term⟩ (mark .atSign)
        ⟨⟨operands, .sendChannel⟩ :: suspended, [], .term⟩
  | receive {suspended operands} :
      Moves ⟨suspended, operands, .term⟩ (word .receive) ⟨suspended, operands, .actionsOpening⟩
  | binder {suspended operands} (binder : Binder) :
      Moves ⟨suspended, operands, .term⟩ (binderWord binder)
        ⟨suspended, operands, .declaredName binder []⟩
  | bundle {suspended operands} :
      Moves ⟨suspended, operands, .term⟩ (word .bundle)
        ⟨suspended, operands, .blockOpening .bundle⟩
  | nextTerm {suspended operands latest} :
      Moves ⟨suspended, operands, .afterTerm latest⟩ (mark .pipe)
        ⟨suspended, latest :: operands, .term⟩
  | close {outer operands inner latest construct punctuation place}
      (closes : construct.close (chain inner latest) punctuation = some place) :
      Moves ⟨⟨operands, construct⟩ :: outer, inner, .afterTerm latest⟩ (mark punctuation)
        ⟨outer, operands, place⟩
  | messageOpening {suspended operands channel} :
      Moves ⟨suspended, operands, .messageOpening channel⟩ (mark .openParen)
        ⟨⟨operands, .sendMessage channel⟩ :: suspended, [], .term⟩
  | actionsOpening {suspended operands} :
      Moves ⟨suspended, operands, .actionsOpening⟩ (mark .openParen)
        ⟨suspended, operands, .actionName []⟩
  | actionName {suspended operands earlier name} :
      Moves ⟨suspended, operands, .actionName earlier⟩ (.identifier name)
        ⟨suspended, operands, .actionArrow earlier name⟩
  | actionArrow {suspended operands earlier name} :
      Moves ⟨suspended, operands, .actionArrow earlier name⟩ (mark .leftArrow)
        ⟨suspended, operands, .actionAt earlier name⟩
  | actionAt {suspended operands earlier name} :
      Moves ⟨suspended, operands, .actionAt earlier name⟩ (mark .atSign)
        ⟨⟨operands, .actionChannel earlier name⟩ :: suspended, [], .term⟩
  | blockOpening {suspended operands owner} :
      Moves ⟨suspended, operands, .blockOpening owner⟩ (mark .openBrace)
        ⟨⟨operands, .block owner⟩ :: suspended, [], .term⟩
  | declaredName {suspended operands binder earlier name} :
      Moves ⟨suspended, operands, .declaredName binder earlier⟩ (.identifier name)
        ⟨suspended, operands, .afterName binder earlier name⟩
  | uriOpening {suspended operands binder earlier name} :
      Moves ⟨suspended, operands, .afterName binder earlier name⟩ (mark .openParen)
        ⟨suspended, operands, .uri binder earlier name⟩
  | plainComma {suspended operands earlier name} :
      Moves ⟨suspended, operands, .afterName .new earlier name⟩ (mark .comma)
        ⟨suspended, operands, .declaredName .new (⟨name, none⟩ :: earlier)⟩
  | plainEnd {suspended operands earlier name} :
      Moves ⟨suspended, operands, .afterName .new earlier name⟩ (word .within)
        ⟨suspended, operands, .blockOpening (.restrict (⟨name, none⟩ :: earlier))⟩
  | uri {suspended operands binder earlier name content} :
      Moves ⟨suspended, operands, .uri binder earlier name⟩ (.uri content)
        ⟨suspended, operands, .afterUri binder (⟨name, some content⟩ :: earlier)⟩
  | uriClosing {suspended operands binder declarations} :
      Moves ⟨suspended, operands, .afterUri binder declarations⟩ (mark .closeParen)
        ⟨suspended, operands, .afterDeclared binder declarations⟩
  | locatedComma {suspended operands binder declarations} :
      Moves ⟨suspended, operands, .afterDeclared binder declarations⟩ (mark .comma)
        ⟨suspended, operands, .declaredName binder declarations⟩
  | locatedEnd {suspended operands binder declarations} :
      Moves ⟨suspended, operands, .afterDeclared binder declarations⟩ (word .within)
        ⟨suspended, operands, .blockOpening (.restrict declarations)⟩

private theorem moves_of_start_term {suspended : List Suspended} {operands : List ProcessTree}
    {token : Token} {next : State}
    (started : State.startTerm ⟨suspended, operands, .term⟩ token = some next) :
    Moves ⟨suspended, operands, .term⟩ token next := by
  cases token with
  | keyword keyword =>
      cases keyword
      all_goals cases started
      case new.refl => exact .binder .new
      case lookup.refl => exact .binder .lookup
      all_goals constructor
  | punctuation punctuation =>
      cases punctuation
      all_goals cases started
      exact .sendChannel
  | integer value =>
      cases started
      exact .integer
  | string content =>
      cases started
      exact .string
  | uri content => cases started
  | identifier name => cases started

private theorem moves_of_continue_chain {suspended : List Suspended} {operands : List ProcessTree}
    {latest : ProcessTree} {token : Token} {next : State}
    (continued : State.continueChain ⟨suspended, operands, .afterTerm latest⟩ latest token =
      some next) :
    Moves ⟨suspended, operands, .afterTerm latest⟩ token next := by
  unfold State.continueChain at continued
  split at continued
  · cases continued
    exact .nextTerm
  · cases suspended with
    | nil => cases continued
    | cons innermost outer =>
        obtain ⟨place, closes, rfl⟩ := Option.map_eq_some_iff.1 continued
        exact .close closes
  · cases continued

theorem moves_of_step {state next : State} {token : Token}
    (stepped : state.step token = some next) : Moves state token next := by
  obtain ⟨suspended, operands, place⟩ := state
  unfold State.step at stepped
  split at stepped
  case h_17 => cases stepped
  all_goals
    rename_i standing
    cases standing
  case h_1 => exact moves_of_start_term stepped
  case h_2 => exact moves_of_continue_chain stepped
  all_goals cases stepped
  all_goals constructor

theorem step_of_moves {state next : State} {token : Token} (moves : Moves state token next) :
    state.step token = some next := by
  cases moves with
  | binder binder => cases binder <;> rfl
  | @close _ _ _ _ construct punctuation _ closes =>
      cases punctuation
      case pipe => cases construct <;> cases closes
      all_goals exact Option.map_eq_some_iff.2 ⟨_, closes, rfl⟩
  | uriOpening => rename_i binder _ _; cases binder <;> rfl
  | _ => rfl

theorem run_of_moves {state next : State} {token : Token} (moves : Moves state token next)
    (rest : List Token) : state.run (token :: rest) = next.run rest := by
  rw [State.run_cons, step_of_moves moves, Option.bind_some]

end RhoFrontend.Reading
