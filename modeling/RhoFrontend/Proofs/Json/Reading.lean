import RhoFrontend.Proofs.Json.Documents
import RhoFrontend.Proofs.Json.Spelling

/-!
The documents that the reader gives have the tokens that it has read. With the other direction, the
texts that it takes are exactly the strict ones within its limit.
-/

namespace RhoFrontend.Json

namespace Reading

/-- Items or fields that are followed by another one. -/
def separated {Part : Type} (tokens : Part → List Token) (parts : List Part) : List Token :=
  parts.flatMap fun part => tokens part ++ [.comma]

def fieldTokens (field : Field) : List Token :=
  .string field.name :: .colon :: field.value.tokens

/-- What has been read of a container that is still open. -/
def Container.tokens : Container → List Token
  | .array earlier => .openBracket :: separated Json.tokens earlier.reverse
  | .object earlier name =>
      .openBrace :: (separated fieldTokens earlier.reverse ++ [.string name, .colon])

/-- What has been read in the innermost container. -/
def Place.tokens : Place → List Token
  | .value | .firstItem => []
  | .firstName => [.openBrace]
  | .name earlier => .openBrace :: separated fieldTokens earlier.reverse
  | .colon earlier last => .openBrace :: (separated fieldTokens earlier.reverse ++ [.string last])
  | .afterValue last => last.tokens

/-- What has been read before a state is reached. -/
def State.tokens (state : State) : List Token :=
  state.containers.reverse.flatMap Container.tokens ++ state.place.tokens

/-- A first item is expected only where an array has just been opened. -/
def State.Sound (state : State) : Prop :=
  state.place = .firstItem → ∃ outer, state.containers = .array [] :: outer

theorem tokens_of_later_items (items : List Json) (last : Json) :
    Json.laterItems (items ++ [last]) =
      .comma :: (separated Json.tokens items ++ (last.tokens ++ [.closeBracket])) := by
  induction items with
  | nil => rfl
  | cons item items induction =>
      rw [List.cons_append, Json.laterItems, induction]
      simp [separated]

theorem tokens_of_items (items : List Json) (last : Json) :
    (Json.array (items ++ [last])).tokens =
      .openBracket :: (separated Json.tokens items ++ (last.tokens ++ [.closeBracket])) := by
  cases items with
  | nil => rfl
  | cons item items =>
      rw [List.cons_append, Json.tokens, tokens_of_later_items]
      simp [separated]

theorem tokens_of_later_fields (fields : List Field) (last : Field) :
    Json.laterFields (fields ++ [last]) =
      .comma :: (separated fieldTokens fields ++ (fieldTokens last ++ [.closeBrace])) := by
  induction fields with
  | nil =>
      cases last
      rfl
  | cons field fields induction =>
      cases field
      rw [List.cons_append, Json.laterFields, induction]
      simp [separated, fieldTokens]

theorem tokens_of_fields (fields : List Field) (last : Field) :
    (Json.object (fields ++ [last])).tokens =
      .openBrace :: (separated fieldTokens fields ++ (fieldTokens last ++ [.closeBrace])) := by
  cases fields with
  | nil =>
      cases last
      rfl
  | cons field fields =>
      cases field
      rw [List.cons_append, Json.tokens, tokens_of_later_fields]
      simp [separated, fieldTokens]

theorem start_tokens {state next : State} {token : Token}
    (start : state.startValue token = some next)
    (fresh : state.tokens = state.containers.reverse.flatMap Container.tokens) :
    next.tokens = state.tokens ++ [token] ∧ next.Sound := by
  rw [fresh]
  unfold State.startValue at start
  split at start
  case h_6 =>
    split at start
    · cases start
      exact ⟨by simp [State.tokens, Place.tokens, Container.tokens, separated],
        fun _ => ⟨_, rfl⟩⟩
    · cases start
  case h_7 =>
    split at start
    · cases start
      exact ⟨by simp [State.tokens, Place.tokens], nofun⟩
    · cases start
  case h_8 => cases start
  all_goals
    cases start
    exact ⟨by simp [State.tokens, Place.tokens, Json.tokens], nofun⟩

theorem continue_tokens {state next : State} {value : Json} {token : Token}
    (step : state.continueContainer value token = some next)
    (after : state.place = .afterValue value) :
    next.tokens = state.tokens ++ [token] ∧ next.Sound := by
  unfold State.continueContainer at step
  split at step
  · next containers =>
      cases step
      refine ⟨?_, nofun⟩
      simp [State.tokens, containers, after, Place.tokens, Container.tokens, separated]
  · next containers =>
      cases step
      refine ⟨?_, nofun⟩
      simp [State.tokens, containers, after, Place.tokens, Container.tokens, tokens_of_items]
  · next containers =>
      cases step
      refine ⟨?_, nofun⟩
      simp [State.tokens, containers, after, Place.tokens, Container.tokens, separated, fieldTokens]
  · next containers =>
      cases step
      refine ⟨?_, nofun⟩
      simp [State.tokens, containers, after, Place.tokens, Container.tokens, tokens_of_fields,
        fieldTokens]
  · cases step

theorem step_tokens {state next : State} {token : Token} (sound : state.Sound)
    (step : state.step token = some next) :
    next.tokens = state.tokens ++ [token] ∧ next.Sound := by
  unfold State.step at step
  split at step
  · next place => exact start_tokens step (by simp [State.tokens, place, Place.tokens])
  · next place =>
      obtain ⟨outer, containers⟩ := sound place
      cases step
      refine ⟨?_, nofun⟩
      simp [State.tokens, containers, place, Place.tokens, Container.tokens, separated, Json.tokens]
  · next place _ => exact start_tokens step (by simp [State.tokens, place, Place.tokens])
  · next place =>
      cases step
      exact ⟨by simp [State.tokens, place, Place.tokens, Json.tokens], nofun⟩
  · next place =>
      cases step
      exact ⟨by simp [State.tokens, place, Place.tokens, separated], nofun⟩
  · next place =>
      cases step
      exact ⟨by simp [State.tokens, place, Place.tokens], nofun⟩
  · next place =>
      cases step
      exact ⟨by simp [State.tokens, place, Place.tokens, Container.tokens], nofun⟩
  · next place => exact continue_tokens step place
  · cases step

theorem read_tokens {state : State} {tokens : List Token} {document : Json} (sound : state.Sound)
    (read : readFrom state tokens = some document) : document.tokens = state.tokens ++ tokens := by
  induction tokens generalizing state with
  | nil =>
      simp only [readFrom, State.finish?] at read
      split at read
      · next containers place =>
          cases read
          simp [State.tokens, containers, place, Place.tokens]
      · cases read
  | cons token tokens induction =>
      rw [readFrom] at read
      split at read
      · next next step =>
          obtain ⟨tokensNext, soundNext⟩ := step_tokens sound step
          rw [induction soundNext read, tokensNext, List.append_assoc]
          rfl
      · cases read

end Reading

/-- The reader takes exactly the strict texts within its limits, each for its document. -/
theorem of_text_eq_some_iff {document : Json} {text : List Char} :
    Json.ofText? text = some document ↔
      document.WrittenAs text ∧ document.depth ≤ 127 ∧ document.NumbersFinite := by
  constructor
  · intro read
    obtain ⟨tokens, lexed, found⟩ := Option.bind_eq_some_iff.1 read
    have sound : Reading.State.start.Sound := fun first => by cases first
    have same : document.tokens = tokens := Reading.read_tokens sound found
    have written : document.WrittenAs text := by
      rw [WrittenAs, same]
      exact Token.spaced_of_text lexed
    exact ⟨written, ((of_text_written written).1 read).2⟩
  · rintro ⟨written, limits⟩
    exact (of_text_written written).2 ⟨rfl, limits⟩

end RhoFrontend.Json
