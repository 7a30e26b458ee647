import Mathlib
import RhoFrontend.Proofs.Reading.Expectation

/-!
Parsing against the grammar. A source that can be cut into tokens is parsed exactly if the grammar
derives them, and to the one tree that it derives. If it derives none, the error stands where the
tokens stop being part of any program, and it lists what could have come there instead.
-/

namespace RhoFrontend

open Grammar Reading
open Token (mark word)

theorem byte_length_eq_utf8_byte_size (source : String) :
    byteLength source.toList = source.utf8ByteSize := by
  have sizes : ∀ text : List Char, byteLength text = text.utf8Encode.size := by
    intro text
    induction text with
    | nil => rfl
    | cons head rest induction =>
        rw [byte_length_cons, induction, List.utf8Encode_cons, ByteArray.size_append,
          List.utf8Encode_singleton]
        simp
  rw [sizes, String.utf8Encode_toList]
  rfl

namespace ProcessTree

theorem read_from_ok_iff (sourceLength : Nat) {state : State} {spanned : List SpannedToken}
    {tree : ProcessTree} : readFrom sourceLength state spanned = .ok tree ↔
      ∃ last, state.run (spanned.map SpannedToken.token) = some last ∧
        last.finish? = some tree := by
  induction spanned generalizing state with
  | nil =>
      simp only [readFrom, List.map_nil, State.run_nil, Option.some.injEq, exists_eq_left']
      cases state.finish? <;> simp
  | cons first rest induction =>
      obtain ⟨token, span⟩ := first
      simp only [readFrom, List.map_cons, State.run_cons]
      cases state.step token with
      | none => simp
      | some next => exact induction

/-- What remains of the input where a reading has failed, and the error that this gives. -/
def FailsOn (sourceLength : Nat) (stop : State) : List SpannedToken → SyntaxError → Prop
  | [], error =>
      stop.finish? = none ∧ error = .ofState stop ⟨sourceLength, sourceLength + 1⟩ none
  | ⟨token, span⟩ :: _, error =>
      stop.step token = none ∧ error = .ofState stop span (some token)

theorem exists_fails_on {sourceLength : Nat} {state : State} {spanned : List SpannedToken}
    {error : SyntaxError} (failed : readFrom sourceLength state spanned = .error error) :
    ∃ before after stop, spanned = before ++ after ∧
      state.run (before.map SpannedToken.token) = some stop ∧
        FailsOn sourceLength stop after error := by
  induction spanned generalizing state with
  | nil =>
      refine ⟨[], [], state, rfl, rfl, ?_⟩
      unfold readFrom at failed
      split at failed
      · cases failed
      · next unfinished =>
          cases failed
          exact ⟨unfinished, rfl⟩
  | cons first rest induction =>
      obtain ⟨token, span⟩ := first
      unfold readFrom at failed
      split at failed
      · next next stepped =>
          obtain ⟨before, after, stop, rfl, run, fails⟩ := induction failed
          refine ⟨⟨token, span⟩ :: before, after, stop, rfl, ?_, fails⟩
          rw [List.map_cons, run_of_moves (moves_of_step stepped), run]
      · next stuck =>
          cases failed
          exact ⟨[], ⟨token, span⟩ :: rest, state, rfl, rfl, stuck, rfl⟩

end ProcessTree

section Lexed

variable {options : Options} {source : String} {spanned : List SpannedToken}
  (lexed : SpannedToken.ofSource options source.toList = .ok spanned)

include lexed

theorem derivations_ok_iff (trees : List ProcessTree) :
    ProcessTree.derivations options source = .ok trees ↔
      ∃ tree, trees = [tree] ∧ Derives (.process tree) (spanned.map SpannedToken.token) := by
  simp only [ProcessTree.derivations, lexed, derives_iff_run,
    ← ProcessTree.read_from_ok_iff (byteLength source.toList)]
  cases ProcessTree.readFrom (byteLength source.toList) .start spanned with
  | ok tree => simp [eq_comm]
  | error error => simp

theorem derivations_syntactic_iff (error : SyntaxError) :
    ProcessTree.derivations options source = .error (.syntactic error) ↔
      ProcessTree.readFrom (byteLength source.toList) .start spanned = .error error := by
  simp only [ProcessTree.derivations, lexed]
  cases ProcessTree.readFrom (byteLength source.toList) .start spanned <;> simp

theorem exists_syntactic_of_rejected
    (rejected : ∀ trees, ProcessTree.derivations options source ≠ .ok trees) :
    ∃ error, ProcessTree.derivations options source = .error (.syntactic error) := by
  cases result : ProcessTree.readFrom (byteLength source.toList) .start spanned with
  | ok tree =>
      rw [ProcessTree.read_from_ok_iff, ← derives_iff_run] at result
      exact absurd ((derivations_ok_iff lexed [tree]).2 ⟨tree, rfl, result⟩) (rejected [tree])
  | error error => exact ⟨error, (derivations_syntactic_iff lexed error).2 result⟩

end Lexed

theorem breaks_at_of_fails_on {sourceLength : Nat} {before after : List SpannedToken} {stop : State}
    {error : SyntaxError} (run : State.start.run (before.map SpannedToken.token) = some stop)
    (fails : ProcessTree.FailsOn sourceLength stop after error) :
    BreaksAt ((before ++ after).map SpannedToken.token) before.length := by
  have consumed : ((before ++ after).map SpannedToken.token).take before.length =
      before.map SpannedToken.token := by
    rw [List.map_append]
    exact List.take_left' (List.length_map _)
  cases after with
  | nil =>
      rw [List.append_nil] at consumed ⊢
      constructor
      · exact Nat.le_of_eq (List.length_map _).symm
      · rw [consumed, viable_iff_run]
        exact ⟨stop, run⟩
      · intro inside
        rw [List.length_map] at inside
        omega
      · intro atEnd complete
        obtain ⟨tree, finished⟩ := (complete_iff_finish run).1 complete
        rw [fails.1] at finished
        cases finished
  | cons first rest =>
      constructor
      · simp
      · rw [consumed, viable_iff_run]
        exact ⟨stop, run⟩
      · intro inside viable
        have extended : ((before ++ first :: rest).map SpannedToken.token).take
            (before.length + 1) = before.map SpannedToken.token ++ [first.token] := by
          rw [List.take_add_one, consumed]
          simp
        rw [extended, viable_append_iff run] at viable
        obtain ⟨next, stepped⟩ := viable
        rw [fails.1] at stepped
        cases stepped
      · intro atEnd
        simp at atEnd

theorem parse_ok_iff_derivations {options : Options} {source : String} {tree : ProcessTree} :
    ProcessTree.parse options source = .ok tree ↔
      ProcessTree.derivations options source = .ok [tree] := by
  unfold ProcessTree.parse ProcessTree.derivations
  split
  · simp [Except.bind]
  · split <;> simp [Except.bind, ProcessTree.unique]

/-- Parsing decides the grammar, and the grammar is not ambiguous. -/
theorem parsing_decides_grammar :
    (∀ (tokens : List Token) (left right : ProcessTree), Derives (.process left) tokens →
        Derives (.process right) tokens → left = right) ∧
      ∀ (options : Options) (source : String) (spanned : List SpannedToken),
        SpannedToken.ofSource options source.toList = .ok spanned →
          (∀ trees, ProcessTree.derivations options source = .ok trees ↔
              ∃ tree, trees = [tree] ∧
                Derives (.process tree) (spanned.map SpannedToken.token)) ∧
            (∀ tree, ProcessTree.parse options source = .ok tree ↔
              Derives (.process tree) (spanned.map SpannedToken.token)) ∧
            (¬ Complete (spanned.map SpannedToken.token) →
              ∃ error, ProcessTree.derivations options source = .error (.syntactic error)) := by
  constructor
  · intro tokens left right leftDerived rightDerived
    obtain ⟨last, run, finished⟩ := run_of_derives leftDerived
    obtain ⟨other, otherRun, otherFinished⟩ := run_of_derives rightDerived
    rw [run] at otherRun
    cases otherRun
    rw [finished] at otherFinished
    exact Option.some.inj otherFinished
  · intro options source spanned lexed
    refine ⟨derivations_ok_iff lexed, ?_, ?_⟩
    · intro tree
      rw [parse_ok_iff_derivations, derivations_ok_iff lexed]
      simp
    · intro incomplete
      apply exists_syntactic_of_rejected lexed
      intro trees accepted
      obtain ⟨tree, -, derived⟩ := (derivations_ok_iff lexed trees).1 accepted
      exact incomplete ⟨tree, derived⟩

/-- The bar belongs to the channel, and no other tree has these tokens. -/
theorem parsing_decides_grammar_chain_in_channel :
    SpannedToken.ofSource {} "@Nil | 1!(-2)".toList =
        .ok [⟨mark .atSign, ⟨0, 1⟩⟩, ⟨word .nil, ⟨1, 4⟩⟩, ⟨mark .pipe, ⟨5, 6⟩⟩,
          ⟨.integer 1, ⟨7, 8⟩⟩, ⟨mark .bang, ⟨8, 9⟩⟩, ⟨mark .openParen, ⟨9, 10⟩⟩,
          ⟨.integer (-2), ⟨10, 12⟩⟩, ⟨mark .closeParen, ⟨12, 13⟩⟩] ∧
      ProcessTree.parse {} "@Nil | 1!(-2)" =
        .ok (.send (.par [.nil, .ground (.int 1)]) (.ground (.int (-2)))) ∧
      ∀ tree, Derives (.process tree) [mark .atSign, word .nil, mark .pipe, .integer 1,
          mark .bang, mark .openParen, .integer (-2), mark .closeParen] →
        tree = .send (.par [.nil, .ground (.int 1)]) (.ground (.int (-2))) := by
  have lexed : SpannedToken.ofSource {} "@Nil | 1!(-2)".toList =
      .ok [⟨mark .atSign, ⟨0, 1⟩⟩, ⟨word .nil, ⟨1, 4⟩⟩, ⟨mark .pipe, ⟨5, 6⟩⟩,
        ⟨.integer 1, ⟨7, 8⟩⟩, ⟨mark .bang, ⟨8, 9⟩⟩, ⟨mark .openParen, ⟨9, 10⟩⟩,
        ⟨.integer (-2), ⟨10, 12⟩⟩, ⟨mark .closeParen, ⟨12, 13⟩⟩] := by cbv
  have channel : Derives (.process (.par [.nil, .ground (.int 1)]))
      [word .nil, mark .pipe, .integer 1] :=
    .parallel (Nat.le_refl 2) (.moreTerms .nil (.lastTerm (.literal (.integer 1))))
  have derived : Derives (.process (.send (.par [.nil, .ground (.int 1)]) (.ground (.int (-2)))))
      [mark .atSign, word .nil, mark .pipe, .integer 1, mark .bang, mark .openParen,
        .integer (-2), mark .closeParen] :=
    .single (.send (.name channel) (.single (.literal (.integer (-2)))))
  refine ⟨lexed, ?_, ?_⟩
  · exact ((parsing_decides_grammar.2 {} _ _ lexed).2.1 _).2 derived
  · intro tree other
    exact parsing_decides_grammar.1 _ _ _ other derived

namespace SyntaxError

/-- The error is about the token with this number: it has the token's span and description. The
end of the input counts as a span of one byte past the source, whatever trivia comes before it. -/
def StandsAt (error : SyntaxError) (source : String) (spanned : List SpannedToken)
    (index : Nat) : Prop :=
  match spanned[index]? with
  | some ⟨token, span⟩ => error.span = span ∧ error.found = some token.describe
  | none =>
      error.span = ⟨source.utf8ByteSize, source.utf8ByteSize + 1⟩ ∧ error.found = none

/-- The list describes exactly what can follow the tokens in a program. Every name is as good as
any other where a name can follow, and so is every uri. Literals are left out, although they can
follow wherever `Nil` can. -/
structure ListsFollowers (consumed : List Token) (expected : List String) : Prop where
  sorted : expected.Pairwise Precedes
  distinct : expected.Nodup
  nonempty : expected ≠ []
  fixed : ∀ token, Fixed token → ¬ Literal token →
    (token.describe ∈ expected ↔ Viable (consumed ++ [token]))
  identifier : ∀ name, "identifier" ∈ expected ↔ Viable (consumed ++ [.identifier name])
  uri : ∀ content, "uri" ∈ expected ↔ Viable (consumed ++ [.uri content])
  endOfInput : "end of input" ∈ expected ↔ Complete consumed
  literal : ∀ token, Literal token → token.describe ∉ expected ∧
    (Viable (consumed ++ [token]) ↔ Viable (consumed ++ [word .nil]))
  onlyThese : ∀ text ∈ expected,
    (∃ token, Fixed token ∧ ¬ Literal token ∧ text = token.describe) ∨
      text = "identifier" ∨ text = "uri" ∨ text = "end of input"

theorem lists_followers_of_run {consumed : List Token} {state : State}
    (run : State.start.run consumed = some state) :
    ListsFollowers consumed (state.expected.map Expectation.describe) where
  sorted := expected_sorted state
  distinct := by
    refine (expected_sorted state).imp ?_
    rintro left _ precedes rfl
    exact List.lt_irrefl _ precedes
  nonempty := by
    rw [Ne, List.map_eq_nil_iff]
    exact expected_ne_nil state
  fixed := by
    intro token fixed notLiteral
    have named : naming token = .token token := by cases token <;> first | rfl | exact fixed.elim
    have listed : Expectation.token token ∈ listable :=
      mem_listable_iff.2 (.inl ⟨token, fixed, notLiteral, rfl⟩)
    rw [viable_append_iff run, ← naming_mem_expected_iff notLiteral, named]
    exact describe_mem_expected_iff listed
  identifier := by
    intro name
    rw [viable_append_iff run, ← naming_mem_expected_iff id]
    exact describe_mem_expected_iff (mem_listable_iff.2 (.inr (.inl rfl)))
  uri := by
    intro content
    rw [viable_append_iff run, ← naming_mem_expected_iff id]
    exact describe_mem_expected_iff (mem_listable_iff.2 (.inr (.inr (.inl rfl))))
  endOfInput := by
    rw [complete_iff_finish run, ← end_mem_expected_iff]
    exact describe_mem_expected_iff (mem_listable_iff.2 (.inr (.inr (.inr rfl))))
  literal := by
    intro token literal
    refine ⟨describe_literal_not_mem literal, ?_⟩
    rw [viable_append_iff run, viable_append_iff run, step_leaf_iff (.inl literal),
      step_leaf_iff (.inr rfl)]
  onlyThese := by
    intro text member
    obtain ⟨expectation, present, rfl⟩ := List.mem_map.1 member
    rcases mem_listable_iff.1 (expected_listable present) with
      ⟨token, fixed, notLiteral, rfl⟩ | rfl | rfl | rfl
    · exact .inl ⟨token, fixed, notLiteral, rfl⟩
    · exact .inr (.inl rfl)
    · exact .inr (.inr (.inl rfl))
    · exact .inr (.inr (.inr rfl))

theorem stands_at_of_fails_on {source : String} {before after : List SpannedToken} {stop : State}
    {error : SyntaxError}
    (fails : ProcessTree.FailsOn (byteLength source.toList) stop after error) :
    error.StandsAt source (before ++ after) before.length := by
  unfold StandsAt
  rw [List.getElem?_append_right (Nat.le_refl _), Nat.sub_self]
  cases after with
  | nil =>
      obtain ⟨-, rfl⟩ := fails
      rw [byte_length_eq_utf8_byte_size]
      exact ⟨rfl, rfl⟩
  | cons first rest =>
      obtain ⟨-, rfl⟩ := fails
      exact ⟨rfl, rfl⟩

theorem exists_stop {options : Options} {source : String} {spanned : List SpannedToken}
    (lexed : SpannedToken.ofSource options source.toList = .ok spanned) {error : SyntaxError}
    (failed : ProcessTree.derivations options source = .error (.syntactic error)) :
    ∃ index stop,
      (∀ other, BreaksAt (spanned.map SpannedToken.token) other ↔ other = index) ∧
        error.StandsAt source spanned index ∧
        State.start.run ((spanned.map SpannedToken.token).take index) = some stop ∧
        error.expected = stop.expected.map Expectation.describe := by
  rw [derivations_syntactic_iff lexed] at failed
  obtain ⟨before, after, stop, rfl, run, fails⟩ := ProcessTree.exists_fails_on failed
  have breaks := breaks_at_of_fails_on run fails
  refine ⟨before.length, stop, ?_, stands_at_of_fails_on fails, ?_, ?_⟩
  · intro other
    constructor
    · intro otherBreaks
      exact otherBreaks.unique breaks
    · rintro rfl
      exact breaks
  · rw [List.map_append, List.take_left' (List.length_map _)]
    exact run
  · cases after with
    | nil => rw [fails.2, ofState]
    | cons first rest => rw [fails.2, ofState]

end SyntaxError

/-- A source of tokens that is no program has its syntax error at the one place where the tokens
stop being part of a program. -/
theorem syntax_error_stands_at_break (options : Options) (source : String)
    (spanned : List SpannedToken)
    (lexed : SpannedToken.ofSource options source.toList = .ok spanned)
    (rejected : ∀ trees, ProcessTree.derivations options source ≠ .ok trees) :
    ∃ error index, ProcessTree.derivations options source = .error (.syntactic error) ∧
      (∀ other, BreaksAt (spanned.map SpannedToken.token) other ↔ other = index) ∧
        error.StandsAt source spanned index := by
  obtain ⟨error, failed⟩ := exists_syntactic_of_rejected lexed rejected
  obtain ⟨index, stop, breaks, stands, -, -⟩ := SyntaxError.exists_stop lexed failed
  exact ⟨error, index, failed, breaks, stands⟩

/-- The list of actions could have ended before the semicolon, but the error is behind it. -/
theorem syntax_error_stands_at_break_after_semicolon :
    SpannedToken.ofSource {} "for (x <- @1;)".toList =
        .ok [⟨word .receive, ⟨0, 3⟩⟩, ⟨mark .openParen, ⟨4, 5⟩⟩, ⟨.identifier "x", ⟨5, 6⟩⟩,
          ⟨mark .leftArrow, ⟨7, 9⟩⟩, ⟨mark .atSign, ⟨10, 11⟩⟩, ⟨.integer 1, ⟨11, 12⟩⟩,
          ⟨mark .semicolon, ⟨12, 13⟩⟩, ⟨mark .closeParen, ⟨13, 14⟩⟩] ∧
      (∀ trees, ProcessTree.derivations {} "for (x <- @1;)" ≠ .ok trees) ∧
      ∃ error index,
        ProcessTree.derivations {} "for (x <- @1;)" = .error (.syntactic error) ∧
        (∀ other, BreaksAt [word .receive, mark .openParen, .identifier "x", mark .leftArrow,
          mark .atSign, .integer 1, mark .semicolon, mark .closeParen] other ↔ other = index) ∧
        error.span = ⟨13, 14⟩ := by
  have lexed : SpannedToken.ofSource {} "for (x <- @1;)".toList =
      .ok [⟨word .receive, ⟨0, 3⟩⟩, ⟨mark .openParen, ⟨4, 5⟩⟩, ⟨.identifier "x", ⟨5, 6⟩⟩,
        ⟨mark .leftArrow, ⟨7, 9⟩⟩, ⟨mark .atSign, ⟨10, 11⟩⟩, ⟨.integer 1, ⟨11, 12⟩⟩,
        ⟨mark .semicolon, ⟨12, 13⟩⟩, ⟨mark .closeParen, ⟨13, 14⟩⟩] := by cbv
  have failed : ProcessTree.derivations {} "for (x <- @1;)" =
      .error (.syntactic ⟨⟨13, 14⟩, ["identifier"], some "`)`"⟩) := by cbv
  have rejected : ∀ trees, ProcessTree.derivations {} "for (x <- @1;)" ≠ .ok trees := by
    intro trees accepted
    rw [failed] at accepted
    cases accepted
  obtain ⟨error, index, failedAt, breaks, -⟩ :=
    syntax_error_stands_at_break {} "for (x <- @1;)" _ lexed rejected
  refine ⟨lexed, rejected, error, index, failedAt, breaks, ?_⟩
  rw [failed] at failedAt
  cases failedAt
  rfl

/-- What a syntax error lists is what could have followed the tokens before it. -/
theorem syntax_error_lists_followers (options : Options) (source : String)
    (spanned : List SpannedToken)
    (lexed : SpannedToken.ofSource options source.toList = .ok spanned)
    (rejected : ∀ trees, ProcessTree.derivations options source ≠ .ok trees) :
    ∃ error index, ProcessTree.derivations options source = .error (.syntactic error) ∧
      (∀ other, BreaksAt (spanned.map SpannedToken.token) other ↔ other = index) ∧
        error.StandsAt source spanned index ∧
        SyntaxError.ListsFollowers ((spanned.map SpannedToken.token).take index)
          error.expected := by
  obtain ⟨error, failed⟩ := exists_syntactic_of_rejected lexed rejected
  obtain ⟨index, stop, breaks, stands, run, listed⟩ := SyntaxError.exists_stop lexed failed
  refine ⟨error, index, failed, breaks, stands, ?_⟩
  rw [listed]
  exact SyntaxError.lists_followers_of_run run

/-- After a channel that may still grow, a semicolon could not follow but a bang or a bar could. -/
theorem syntax_error_lists_followers_in_channel :
    SpannedToken.ofSource {} "@1;".toList =
        .ok [⟨mark .atSign, ⟨0, 1⟩⟩, ⟨.integer 1, ⟨1, 2⟩⟩, ⟨mark .semicolon, ⟨2, 3⟩⟩] ∧
      (∀ trees, ProcessTree.derivations {} "@1;" ≠ .ok trees) ∧
      ∃ error index, ProcessTree.derivations {} "@1;" = .error (.syntactic error) ∧
        SyntaxError.ListsFollowers
          ([mark .atSign, .integer 1, mark .semicolon].take index) error.expected ∧
        error.expected = ["`!`", "`|`"] := by
  have lexed : SpannedToken.ofSource {} "@1;".toList =
      .ok [⟨mark .atSign, ⟨0, 1⟩⟩, ⟨.integer 1, ⟨1, 2⟩⟩, ⟨mark .semicolon, ⟨2, 3⟩⟩] := by cbv
  have failed : ProcessTree.derivations {} "@1;" =
      .error (.syntactic ⟨⟨2, 3⟩, ["`!`", "`|`"], some "`;`"⟩) := by cbv
  have rejected : ∀ trees, ProcessTree.derivations {} "@1;" ≠ .ok trees := by
    intro trees accepted
    rw [failed] at accepted
    cases accepted
  obtain ⟨error, index, failedAt, -, -, followers⟩ :=
    syntax_error_lists_followers {} "@1;" _ lexed rejected
  refine ⟨lexed, rejected, error, index, failedAt, followers, ?_⟩
  rw [failed] at failedAt
  cases failedAt
  rfl

end RhoFrontend
