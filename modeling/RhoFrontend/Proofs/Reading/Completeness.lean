import RhoFrontend.Proofs.Reading.Run

/-!
Whatever the grammar derives is read, and the value it is reduced to is the one that the reading
ends with. Each phrase is read from the place where it may begin, inside any open constructs and
with any tokens after it, so the rules of the grammar can be put together.
-/

namespace RhoFrontend.Reading

open Grammar
open Token (mark word)

theorem chain_of_terms {before : List ProcessTree} (several : 1 ≤ before.length)
    (last : ProcessTree) : chain before.reverse last = .par (before ++ [last]) := by
  unfold chain
  split
  · next alone =>
      rw [List.reverse_eq_nil_iff] at alone
      subst alone
      simp at several
  · simp only [List.reverse_cons, List.reverse_reverse]

/-- A process is read as its chain, and the constructs around it stay as they are. -/
def ReadsProcess (tree : ProcessTree) (tokens : List Token) : Prop :=
  ∃ operands latest, chain operands latest = tree ∧ ∀ suspended rest,
    State.run ⟨suspended, [], .term⟩ (tokens ++ rest) =
      State.run ⟨suspended, operands, .afterTerm latest⟩ rest

/-- The mark after the process ends it, whatever the length of its chain. -/
theorem ReadsProcess.close {tree : ProcessTree} {tokens : List Token}
    (reads : ReadsProcess tree tokens) {construct : Construct} {punctuation : Punctuation}
    {place : Place} (closes : construct.close tree punctuation = some place)
    (outer : List Suspended) (operands : List ProcessTree) (rest : List Token) :
    State.run ⟨⟨operands, construct⟩ :: outer, [], .term⟩ (tokens ++ mark punctuation :: rest) =
      State.run ⟨outer, operands, place⟩ rest := by
  obtain ⟨inner, latest, rfl, run⟩ := reads
  rw [run, run_of_moves (.close closes)]

/-- What reading the tokens of a phrase comes to. An item of a list is read together with the
separator or the token that ends the list. -/
def Reads : Phrase → List Token → Prop
  | .process tree, tokens => ReadsProcess tree tokens
  | .terms trees, tokens =>
      ∃ before last, trees = before ++ [last] ∧ ∀ suspended operands rest,
        State.run ⟨suspended, operands, .term⟩ (tokens ++ rest) =
          State.run ⟨suspended, before.reverse ++ operands, .afterTerm last⟩ rest
  | .term tree, tokens =>
      ∀ suspended operands rest,
        State.run ⟨suspended, operands, .term⟩ (tokens ++ rest) =
          State.run ⟨suspended, operands, .afterTerm tree⟩ rest
  | .ground value, tokens =>
      ∀ suspended operands rest,
        State.run ⟨suspended, operands, .term⟩ (tokens ++ rest) =
          State.run ⟨suspended, operands, .afterTerm (.ground value)⟩ rest
  | .name channel, tokens =>
      ∃ inner, tokens = mark .atSign :: inner ∧ ReadsProcess channel inner
  | .action action, tokens =>
      ∀ suspended operands earlier rest,
        State.run ⟨suspended, operands, .actionName earlier⟩ (tokens ++ mark .semicolon :: rest) =
            State.run ⟨suspended, operands, .actionName (action :: earlier)⟩ rest ∧
          State.run ⟨suspended, operands, .actionName earlier⟩
              (tokens ++ mark .closeParen :: rest) =
            State.run ⟨suspended, operands, .blockOpening (.receive (action :: earlier))⟩ rest
  | .actions actions, tokens =>
      ∀ suspended operands earlier rest,
        State.run ⟨suspended, operands, .actionName earlier⟩ (tokens ++ mark .closeParen :: rest) =
          State.run ⟨suspended, operands, .blockOpening (.receive (actions.reverse ++ earlier))⟩
            rest
  | .declaration binder declaration, tokens =>
      ∀ suspended operands earlier rest,
        State.run ⟨suspended, operands, .declaredName binder earlier⟩
              (tokens ++ mark .comma :: rest) =
            State.run ⟨suspended, operands, .declaredName binder (declaration :: earlier)⟩ rest ∧
          State.run ⟨suspended, operands, .declaredName binder earlier⟩
              (tokens ++ word .within :: rest) =
            State.run ⟨suspended, operands, .blockOpening (.restrict (declaration :: earlier))⟩
              rest
  | .declarations binder declarations, tokens =>
      ∀ suspended operands earlier rest,
        State.run ⟨suspended, operands, .declaredName binder earlier⟩
            (tokens ++ word .within :: rest) =
          State.run
            ⟨suspended, operands, .blockOpening (.restrict (declarations.reverse ++ earlier))⟩ rest
  | .block body, tokens =>
      ∀ suspended operands owner rest,
        State.run ⟨suspended, operands, .blockOpening owner⟩ (tokens ++ rest) =
          State.run ⟨suspended, operands, .afterTerm (owner.complete body)⟩ rest

theorem reads_of_derives {phrase : Phrase} {tokens : List Token}
    (derived : Derives phrase tokens) : Reads phrase tokens := by
  induction derived with
  | @single tree _ _ only =>
      exact ⟨[], tree, rfl, fun suspended rest => only suspended [] rest⟩
  | parallel several _ all =>
      obtain ⟨before, last, rfl, run⟩ := all
      have nonempty : 1 ≤ before.length := by
        simp only [List.length_append, List.length_cons, List.length_nil] at several
        omega
      refine ⟨before.reverse, last, chain_of_terms nonempty last, ?_⟩
      intro suspended rest
      rw [run, List.append_nil]
  | @lastTerm tree _ _ last => exact ⟨[], tree, rfl, last⟩
  | @moreTerms tree _ _ _ _ _ first others =>
      obtain ⟨before, last, rfl, run⟩ := others
      refine ⟨tree :: before, last, rfl, ?_⟩
      intro suspended operands rest
      rw [List.append_assoc, first, List.cons_append, run_of_moves .nextTerm, run]
      simp only [List.reverse_cons, List.append_assoc, List.singleton_append]
  | nil =>
      intro suspended operands rest
      exact run_of_moves .nil rest
  | literal _ ground => exact ground
  | send _ _ channelName content =>
      obtain ⟨inner, rfl, channelRead⟩ := channelName
      intro suspended operands rest
      simp only [List.cons_append, List.append_assoc]
      rw [run_of_moves .sendChannel, channelRead.close rfl, run_of_moves .messageOpening,
        content.close rfl]
      rfl
  | receive _ _ bindings inner =>
      intro suspended operands rest
      simp only [List.cons_append, List.append_assoc]
      rw [run_of_moves .receive, run_of_moves .actionsOpening, bindings, inner]
      simp only [BlockOwner.complete, List.append_nil, List.reverse_reverse]
  | @restrict binder _ _ _ _ _ _ names inner =>
      intro suspended operands rest
      simp only [List.cons_append, List.append_assoc]
      rw [run_of_moves (.binder binder), names, inner]
      simp only [BlockOwner.complete, List.append_nil, List.reverse_reverse]
  | bundle _ inner =>
      intro suspended operands rest
      rw [List.cons_append, run_of_moves .bundle, inner]
      rfl
  | integer value =>
      intro suspended operands rest
      exact run_of_moves .integer rest
  | string content =>
      intro suspended operands rest
      exact run_of_moves .string rest
  | trueValue =>
      intro suspended operands rest
      exact run_of_moves .trueValue rest
  | falseValue =>
      intro suspended operands rest
      exact run_of_moves .falseValue rest
  | name _ inner => exact ⟨_, rfl, inner⟩
  | action _ channelName =>
      obtain ⟨inner, rfl, channelRead⟩ := channelName
      intro suspended operands earlier rest
      constructor
      all_goals
        simp only [List.cons_append]
        rw [run_of_moves .actionName, run_of_moves .actionArrow, run_of_moves .actionAt,
          channelRead.close rfl]
  | lastAction _ last =>
      intro suspended operands earlier rest
      exact (last suspended operands earlier rest).2
  | moreActions _ _ first others =>
      intro suspended operands earlier rest
      rw [List.append_assoc, List.cons_append, (first suspended operands earlier _).1, others]
      simp only [List.reverse_cons, List.append_assoc, List.singleton_append]
  | plain name =>
      intro suspended operands earlier rest
      constructor
      · exact run_of_moves .declaredName _ |>.trans (run_of_moves .plainComma rest)
      · exact run_of_moves .declaredName _ |>.trans (run_of_moves .plainEnd rest)
  | located binder name resource =>
      intro suspended operands earlier rest
      constructor
      all_goals
        simp only [List.cons_append, List.nil_append]
        rw [run_of_moves .declaredName, run_of_moves .uriOpening, run_of_moves .uri,
          run_of_moves .uriClosing]
      · exact run_of_moves .locatedComma rest
      · exact run_of_moves .locatedEnd rest
  | lastDeclaration _ last =>
      intro suspended operands earlier rest
      exact (last suspended operands earlier rest).2
  | moreDeclarations _ _ first others =>
      intro suspended operands earlier rest
      rw [List.append_assoc, List.cons_append, (first suspended operands earlier _).1, others]
      simp only [List.reverse_cons, List.append_assoc, List.singleton_append]
  | block _ inner =>
      intro suspended operands owner rest
      simp only [List.cons_append, List.append_assoc]
      rw [run_of_moves .blockOpening]
      exact inner.close rfl suspended operands rest

theorem run_of_derives {tree : ProcessTree} {tokens : List Token}
    (derived : Derives (.process tree) tokens) :
    ∃ last, State.start.run tokens = some last ∧ last.finish? = some tree := by
  obtain ⟨operands, latest, same, run⟩ := reads_of_derives derived
  have whole := run [] []
  rw [List.append_nil] at whole
  exact ⟨⟨[], operands, .afterTerm latest⟩, whole, congrArg some same⟩

end RhoFrontend.Reading
