import RhoFrontend.Proofs.LineComments

/-!
Sources that differ in nothing but trivia. A token reads the same wherever it is put, as long as it
touches no token that it did not touch before. So other trivia, down to none at all between tokens
that touched already, moves the tokens and changes neither the tree nor what a syntax error says.
-/

namespace RhoFrontend

/-- Other trivia for the tokens of a source: some before the first one, and some behind each. Tokens
are left without any between them only where there was none. -/
structure Respacing (source : String) where
  leading : List Char
  spaced : List (SpannedToken × List Char)
  lexed : SpannedToken.ofSource {} source.toList = .ok (spaced.map Prod.fst)
  leads : TriviaText leading
  follows : ∀ each ∈ spaced, TriviaText each.2
  apart : spaced.IsChain fun left right => left.2 = [] → left.1.span.stop = right.1.span.start

namespace Respacing

variable {source : String}

/-- The tokens as the source spells them, with the trivia behind each. -/
def written (source : String) : List (SpannedToken × List Char) → List Char
  | [] => []
  | (each, gap) :: rest => (each.span.textIn source).toList ++ (gap ++ written source rest)

/-- The tokens with the spans that they have there if the text begins at an offset. -/
def placed (source : String) (offset : Nat) : List (SpannedToken × List Char) → List SpannedToken
  | [] => []
  | (each, gap) :: rest =>
      let stop := offset + byteLength (each.span.textIn source).toList
      ⟨each.token, ⟨offset, stop⟩⟩ :: placed source (stop + byteLength gap) rest

def text (spacing : Respacing source) : String :=
  String.ofList (spacing.leading ++ written source spacing.spaced)

def spanned (spacing : Respacing source) : List SpannedToken :=
  placed source (byteLength spacing.leading) spacing.spaced

theorem tokens_of_placed (offset : Nat) (spaced : List (SpannedToken × List Char)) :
    (placed source offset spaced).map SpannedToken.token =
      (spaced.map Prod.fst).map SpannedToken.token := by
  induction spaced generalizing offset with
  | nil => rfl
  | cons first rest induction =>
      simp only [placed, List.map_cons]
      rw [induction]

end Respacing

namespace Layout

variable {offset : Nat} {text : List Char}

theorem start_le {spanned : List SpannedToken} (layout : Layout offset text spanned) :
    ∀ each ∈ spanned, offset ≤ each.span.start := by
  induction layout with
  | finished | openComment => exact fun each none => by cases none
  | trivia first others induction =>
      intro each member
      exact Nat.le_trans (Nat.le_add_right _ _) (induction each member)
  | token spelled ends others induction =>
      intro each member
      rcases List.mem_cons.1 member with rfl | later
      · exact Nat.le_refl _
      · exact Nat.le_trans (Nat.le_add_right _ _) (induction each later)

/-- A text whose first token has no trivia before it begins with the text of that token. -/
theorem exists_first {first : SpannedToken} {others : List SpannedToken}
    (layout : Layout offset text (first :: others)) (touches : offset = first.span.start) :
    ∃ found rest, text = found ++ rest ∧ found ≠ [] ∧
      first.span = ⟨offset, offset + byteLength found⟩ := by
  cases layout with
  | @trivia _ item rest _ trivia later =>
      have behind := later.start_le first List.mem_cons_self
      have nonempty : item ≠ [] := by cases trivia <;> simp
      have positive := byte_length_pos nonempty
      omega
  | @token _ _ found rest _ spelled => exact ⟨found, rest, rfl, spelled.nonempty, rfl⟩

end Layout

section Written

variable {source : String} {offset : Nat} {before : List Char}

open Respacing

/-- What is put behind a token does not extend it: trivia never does, and a token that it touches
now stood right behind it in the source as well. -/
theorem Token.ends_before_written {token : Token} {rest gap : List Char}
    {later : List (SpannedToken × List Char)} (ends : token.EndsBefore rest)
    (layout : Layout offset rest (later.map Prod.fst)) (split : source.toList = before ++ rest)
    (place : offset = byteLength before) (trivia : TriviaText gap)
    (touches : ∀ next ∈ later.head?, gap = [] → offset = next.1.span.start) :
    token.EndsBefore (gap ++ written source later) := by
  cases trivia with
  | more item others =>
      rw [List.append_assoc]
      exact token.ends_before_trivia item _
  | none =>
      cases later with
      | nil => exact fun char none => by cases none
      | cons next later =>
          obtain ⟨found, after, rfl, nonempty, span⟩ := layout.exists_first (touches next rfl rfl)
          have same : next.1.span.textIn source = String.ofList found := by
            rw [span, place, ← byte_length_append]
            exact Span.text_in_split split
          obtain ⟨first, body, rfl⟩ := List.exists_cons_of_ne_nil nonempty
          rw [written, same, String.toList_ofList]
          exact ends

/-- The tokens of a part of the source are read from their new places. -/
theorem Layout.read_written {text : List Char} {spaced : List (SpannedToken × List Char)}
    (layout : Layout offset text (spaced.map Prod.fst)) (split : source.toList = before ++ text)
    (place : offset = byteLength before) (follows : ∀ each ∈ spaced, TriviaText each.2)
    (apart : spaced.IsChain fun left right => left.2 = [] → left.1.span.stop = right.1.span.start)
    (options : Options) (position : Nat) :
    SpannedToken.ofTextAt options position (written source spaced) =
      .ok (placed source position spaced) := by
  generalize tokens : spaced.map Prod.fst = spanned at layout
  induction layout generalizing before spaced position with
  | finished | openComment =>
      rw [List.map_eq_nil_iff] at tokens
      subst tokens
      exact SpannedToken.of_text_at_nil
  | @trivia offset item rest spanned first others induction =>
      rw [← List.append_assoc] at split
      have moved : offset + byteLength item = byteLength (before ++ item) := by
        rw [byte_length_append, place]
      exact induction split moved follows apart position tokens
  | @token offset token text rest spanned spelled ends others induction =>
      obtain ⟨⟨each, gap⟩, later, rfl, rfl, rfl⟩ := List.map_eq_cons_iff.1 tokens
      have same : Span.textIn source ⟨offset, offset + byteLength text⟩ = String.ofList text := by
        rw [place, ← byte_length_append]
        exact Span.text_in_split split
      rw [← List.append_assoc] at split
      have moved : offset + byteLength text = byteLength (before ++ text) := by
        rw [byte_length_append, place]
      obtain ⟨trivia, laterTrivia⟩ := List.forall_mem_cons.1 follows
      obtain ⟨touches, laterApart⟩ := List.isChain_cons.1 apart
      have endsNow : token.EndsBefore (gap ++ written source later) :=
        Token.ends_before_written ends others split moved trivia touches
      have read := induction split moved laterTrivia laterApart
        (position + byteLength text + byteLength gap) rfl
      rw [written, placed, same, String.toList_ofList,
        SpannedToken.of_text_at_spelled spelled endsNow,
        SpannedToken.of_text_at_trivia_text trivia, read]
      rfl

end Written

/-- The new text is read as the same tokens, and they stand where they were put. -/
theorem Respacing.lex {source : String} (spacing : Respacing source) (options : Options) :
    SpannedToken.ofSource options spacing.text.toList = .ok spacing.spanned := by
  have layout : Layout 0 source.toList (spacing.spaced.map Prod.fst) :=
    layout_of_text_at spacing.lexed
  have whole : source.toList = [] ++ source.toList := rfl
  have read := layout.read_written whole rfl spacing.follows spacing.apart options
    (0 + byteLength spacing.leading)
  rw [← SpannedToken.of_text_at_trivia_text spacing.leads, Nat.zero_add] at read
  rw [Respacing.text, String.toList_ofList]
  exact read

theorem SyntaxError.StandsAt.found_eq {error : SyntaxError} {source : String}
    {spanned : List SpannedToken} {index : Nat} (stands : error.StandsAt source spanned index) :
    error.found = ((spanned.map SpannedToken.token)[index]?).map Token.describe := by
  unfold SyntaxError.StandsAt at stands
  rw [List.getElem?_map]
  cases found : spanned[index]? with
  | none =>
      rw [found] at stands
      exact stands.2
  | some each =>
      rw [found] at stands
      exact stands.2

section SameTokens

variable {options otherOptions : Options} {source other : String}
  {spanned otherSpanned : List SpannedToken}
  (lexed : SpannedToken.ofSource options source.toList = .ok spanned)
  (otherLexed : SpannedToken.ofSource otherOptions other.toList = .ok otherSpanned)
  (same : otherSpanned.map SpannedToken.token = spanned.map SpannedToken.token)

include lexed otherLexed same

theorem derivations_ok_iff_of_same_tokens (trees : List ProcessTree) :
    ProcessTree.derivations options source = .ok trees ↔
      ProcessTree.derivations otherOptions other = .ok trees := by
  rw [derivations_ok_iff lexed, derivations_ok_iff otherLexed, same]

/-- The error only moves with the token that it is about. -/
theorem exists_error_of_same_tokens {error : SyntaxError}
    (failed : ProcessTree.derivations options source = .error (.syntactic error)) :
    ∃ otherError index,
      ProcessTree.derivations otherOptions other = .error (.syntactic otherError) ∧
        otherError.expected = error.expected ∧ otherError.found = error.found ∧
        error.StandsAt source spanned index ∧ otherError.StandsAt other otherSpanned index := by
  have rejected : ∀ trees, ProcessTree.derivations otherOptions other ≠ .ok trees := by
    intro trees accepted
    rw [← derivations_ok_iff_of_same_tokens lexed otherLexed same, failed] at accepted
    cases accepted
  obtain ⟨otherError, otherFailed⟩ := exists_syntactic_of_rejected otherLexed rejected
  obtain ⟨index, stop, breaks, stands, run, expected⟩ := SyntaxError.exists_stop lexed failed
  obtain ⟨otherIndex, otherStop, otherBreaks, otherStands, otherRun, otherExpected⟩ :=
    SyntaxError.exists_stop otherLexed otherFailed
  rw [same] at otherBreaks otherRun
  have sameIndex : otherIndex = index := (breaks otherIndex).1 ((otherBreaks otherIndex).2 rfl)
  subst sameIndex
  have sameStop : otherStop = stop := Option.some.inj (otherRun.symm.trans run)
  refine ⟨otherError, otherIndex, otherFailed, ?_, ?_, stands, otherStands⟩
  · rw [otherExpected, expected, sameStop]
  · rw [otherStands.found_eq, stands.found_eq, same]

end SameTokens

/-- Other trivia moves the tokens of a source and changes nothing else: not the tree, and of a
syntax error only the place, which is still that of the same token. -/
theorem respacing_keeps_outcome (source : String) (spacing : Respacing source)
    (options : Options) :
    SpannedToken.ofSource options spacing.text.toList = .ok spacing.spanned ∧
      (∀ tree, ProcessTree.parse {} source = .ok tree →
        ProcessTree.parse options spacing.text = .ok tree) ∧
      ((∀ tree, ProcessTree.parse {} source ≠ .ok tree) →
        ∃ error moved index,
          ProcessTree.derivations {} source = .error (.syntactic error) ∧
          ProcessTree.derivations options spacing.text = .error (.syntactic moved) ∧
          moved.expected = error.expected ∧ moved.found = error.found ∧
          error.StandsAt source (spacing.spaced.map Prod.fst) index ∧
          moved.StandsAt spacing.text spacing.spanned index) := by
  have lexed := spacing.lexed
  have relexed := spacing.lex options
  have same : spacing.spanned.map SpannedToken.token =
      (spacing.spaced.map Prod.fst).map SpannedToken.token :=
    Respacing.tokens_of_placed _ _
  refine ⟨relexed, ?_, ?_⟩
  · intro tree accepted
    rw [parse_ok_iff_derivations] at accepted ⊢
    exact (derivations_ok_iff_of_same_tokens lexed relexed same [tree]).1 accepted
  · intro rejected
    have noTrees : ∀ trees, ProcessTree.derivations {} source ≠ .ok trees := by
      intro trees accepted
      obtain ⟨tree, rfl, -⟩ := (derivations_ok_iff lexed trees).1 accepted
      exact rejected tree (parse_ok_iff_derivations.2 accepted)
    obtain ⟨error, failed⟩ := exists_syntactic_of_rejected lexed noTrees
    obtain ⟨moved, index, movedFailed, kept⟩ :=
      exists_error_of_same_tokens lexed relexed same failed
    exact ⟨error, moved, index, failed, movedFailed, kept⟩

/-- The bar keeps its missing operand, and the tokens that touched may go on to do so. -/
theorem respacing_keeps_outcome_behind_bar :
    (∃ spacing : Respacing "1|//", spacing.text = "/*é*/1| //\n" ∧
        (∀ tree, ProcessTree.parse {} "1|//" ≠ .ok tree) ∧
        ∃ error moved,
          ProcessTree.derivations {} "1|//" = .error (.syntactic error) ∧
          ProcessTree.derivations .strict "/*é*/1| //\n" = .error (.syntactic moved) ∧
          moved.expected = error.expected ∧ moved.found = error.found) ∧
      ∃ spacing : Respacing "1 |Nil", spacing.text = "1//|\n|Nil" ∧
        ProcessTree.parse {} "1 |Nil" = .ok (.par [.ground (.int 1), .nil]) ∧
        ProcessTree.parse .strict "1//|\n|Nil" = .ok (.par [.ground (.int 1), .nil]) := by
  constructor
  · have noMark : ¬ ['*', '/'] <:+: ['é'] := by decide
    have comment : TriviaText ['/', '*', 'é', '*', '/'] := .of_item (.blockComment noMark)
    have space : TriviaItem [' '] := .blank (by simp)
    have empty : '\n' ∉ ([] : List Char) := List.not_mem_nil
    have line : TriviaText [' ', '/', '/', '\n'] := .more space (.of_item (.lineComment empty))
    let spacing : Respacing "1|//" := {
      leading := ['/', '*', 'é', '*', '/']
      spaced := [(⟨.integer 1, ⟨0, 1⟩⟩, []),
        (⟨.punctuation .pipe, ⟨1, 2⟩⟩, [' ', '/', '/', '\n'])]
      lexed := by cbv
      leads := comment
      follows := by simp [TriviaText.none, line]
      apart := by simp }
    have text : spacing.text = "/*é*/1| //\n" := by cbv
    have rejected : ∀ tree, ProcessTree.parse {} "1|//" ≠ .ok tree := by
      have failed : ProcessTree.parse {} "1|//" = .error (.syntactic ⟨⟨4, 5⟩,
        ["`@`", "`Nil`", "`bundle`", "`for`", "`lookup`", "`new`"], none⟩) := by cbv
      rw [failed]
      exact fun tree accepted => by cases accepted
    have kept := (respacing_keeps_outcome _ spacing .strict).2.2 rejected
    rw [text] at kept
    obtain ⟨error, moved, -, failed, movedFailed, expected, found, -⟩ := kept
    exact ⟨spacing, text, rejected, error, moved, failed, movedFailed, expected, found⟩
  · have inLine : '\n' ∉ ['|'] := by simp
    have line : TriviaText ['/', '/', '|', '\n'] := .of_item (.lineComment inLine)
    let spacing : Respacing "1 |Nil" := {
      leading := []
      spaced := [(⟨.integer 1, ⟨0, 1⟩⟩, ['/', '/', '|', '\n']),
        (⟨.punctuation .pipe, ⟨2, 3⟩⟩, []), (⟨.keyword .nil, ⟨3, 6⟩⟩, [])]
      lexed := by cbv
      leads := .none
      follows := by simp [TriviaText.none, line]
      apart := by simp }
    have text : spacing.text = "1//|\n|Nil" := by cbv
    have accepted : ProcessTree.parse {} "1 |Nil" = .ok (.par [.ground (.int 1), .nil]) := by cbv
    have kept := (respacing_keeps_outcome _ spacing .strict).2.1 _ accepted
    rw [text] at kept
    exact ⟨spacing, text, accepted, kept⟩

end RhoFrontend
