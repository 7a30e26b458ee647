import RhoFrontend.Proofs.Reading.Run

/-!
Whatever is read to its end is derived by the grammar. The invariant is a decomposition of the
tokens behind a state: for every construct that is open, the terms of the chain it interrupts and
the tokens that opened it, then the same for the innermost chain. One move keeps it, and at the end
of the input it is a derivation.
-/

namespace RhoFrontend.Reading

open Grammar
open Token (mark word)

def EarlierTerms : List ProcessTree → List Token → Prop :=
  Separated (fun tree tokens => Derives (.term tree) tokens) (mark .pipe)

def EarlierActions : List Action → List Token → Prop :=
  Separated (fun action tokens => Derives (.action action) tokens) (mark .semicolon)

def EarlierDeclarations (binder : Binder) : List Declaration → List Token → Prop :=
  Separated (fun declaration tokens => Derives (.declaration binder declaration) tokens)
    (mark .comma)

def BlockOwner.Behind : BlockOwner → List Token → Prop
  | .receive actions, tokens =>
      ∃ list, Derives (.actions actions.reverse) list ∧
        tokens = word .receive :: mark .openParen :: (list ++ [mark .closeParen])
  | .restrict declarations, tokens =>
      ∃ binder list, Derives (.declarations binder declarations.reverse) list ∧
        tokens = binderWord binder :: (list ++ [word .within])
  | .bundle, tokens => tokens = [word .bundle]

/-- The tokens of a construct up to the process inside it. -/
def Construct.Behind : Construct → List Token → Prop
  | .sendChannel, tokens => tokens = [mark .atSign]
  | .sendMessage channel, tokens =>
      ∃ inner, Derives (.process channel) inner ∧
        tokens = mark .atSign :: (inner ++ [mark .bang, mark .openParen])
  | .actionChannel earlier name, tokens =>
      ∃ list, EarlierActions earlier list ∧ tokens = word .receive :: mark .openParen ::
        (list ++ [.identifier name, mark .leftArrow, mark .atSign])
  | .block owner, tokens => ∃ header, owner.Behind header ∧ tokens = header ++ [mark .openBrace]

/-- The tokens of the term in progress up to the place. -/
def Place.Behind : Place → List Token → Prop
  | .term, tokens => tokens = []
  | .afterTerm latest, tokens => Derives (.term latest) tokens
  | .messageOpening channel, tokens =>
      ∃ inner, Derives (.process channel) inner ∧
        tokens = mark .atSign :: (inner ++ [mark .bang])
  | .actionsOpening, tokens => tokens = [word .receive]
  | .actionName earlier, tokens =>
      ∃ list, EarlierActions earlier list ∧ tokens = word .receive :: mark .openParen :: list
  | .actionArrow earlier name, tokens =>
      ∃ list, EarlierActions earlier list ∧
        tokens = word .receive :: mark .openParen :: (list ++ [.identifier name])
  | .actionAt earlier name, tokens =>
      ∃ list, EarlierActions earlier list ∧
        tokens = word .receive :: mark .openParen :: (list ++ [.identifier name, mark .leftArrow])
  | .blockOpening owner, tokens => owner.Behind tokens
  | .declaredName binder earlier, tokens =>
      ∃ list, EarlierDeclarations binder earlier list ∧ tokens = binderWord binder :: list
  | .afterName binder earlier name, tokens =>
      ∃ list, EarlierDeclarations binder earlier list ∧
        tokens = binderWord binder :: (list ++ [.identifier name])
  | .uri binder earlier name, tokens =>
      ∃ list, EarlierDeclarations binder earlier list ∧
        tokens = binderWord binder :: (list ++ [.identifier name, mark .openParen])
  | .afterUri binder declarations, tokens =>
      ∃ name content earlier list, declarations = ⟨name, some content⟩ :: earlier ∧
        EarlierDeclarations binder earlier list ∧
        tokens = binderWord binder :: (list ++ [.identifier name, mark .openParen, .uri content])
  | .afterDeclared binder declarations, tokens =>
      ∃ latest earlier list final, declarations = latest :: earlier ∧
        EarlierDeclarations binder earlier list ∧ Derives (.declaration binder latest) final ∧
        tokens = binderWord binder :: (list ++ final)

/-- The tokens up to the process inside the innermost construct. -/
def StackBehind : List Suspended → List Token → Prop
  | [], tokens => tokens = []
  | ⟨operands, construct⟩ :: suspended, tokens =>
      ∃ outer chained opening, StackBehind suspended outer ∧ EarlierTerms operands chained ∧
        construct.Behind opening ∧ tokens = outer ++ (chained ++ opening)

def State.Behind (state : State) (tokens : List Token) : Prop :=
  ∃ outer chained current, StackBehind state.suspended outer ∧
    EarlierTerms state.operands chained ∧ state.place.Behind current ∧
    tokens = outer ++ (chained ++ current)

theorem behind_start : State.start.Behind [] := ⟨[], [], [], rfl, .none, rfl, rfl⟩

theorem derives_of_chain {operands : List ProcessTree} {latest : ProcessTree}
    {chained current : List Token} (earlier : EarlierTerms operands chained)
    (last : Derives (.term latest) current) :
    Derives (.process (chain operands latest)) (chained ++ current) := by
  cases operands with
  | nil =>
      cases earlier
      exact .single last
  | cons operand operands =>
      have joined := Separated.join (fun trees tokens => Derives (.terms trees) tokens)
        .moreTerms earlier (.lastTerm last)
      have several : 2 ≤ ((operand :: operands).reverse ++ [latest]).length := by
        simp only [List.length_append, List.length_reverse, List.length_cons, List.length_nil]
        omega
      have whole := Derives.parallel several joined
      simpa only [chain, List.reverse_cons] using whole

theorem derives_of_actions {earlier : List Action} {latest : Action} {list current : List Token}
    (before : EarlierActions earlier list) (last : Derives (.action latest) current) :
    Derives (.actions (latest :: earlier).reverse) (list ++ current) := by
  rw [List.reverse_cons]
  exact Separated.join (fun actions tokens => Derives (.actions actions) tokens)
    .moreActions before (.lastAction last)

theorem derives_of_declarations {binder : Binder} {earlier : List Declaration}
    {latest : Declaration} {list current : List Token}
    (before : EarlierDeclarations binder earlier list)
    (last : Derives (.declaration binder latest) current) :
    Derives (.declarations binder (latest :: earlier).reverse) (list ++ current) := by
  rw [List.reverse_cons]
  exact Separated.join
    (fun declarations tokens => Derives (.declarations binder declarations) tokens)
    .moreDeclarations before (.lastDeclaration last)

section Moves

variable {suspended : List Suspended} {operands : List ProcessTree} {place next : Place}
  {construct : Construct} {tokens : List Token} {token : Token}

theorem State.Behind.within (behind : State.Behind ⟨suspended, operands, place⟩ tokens)
    (extend : ∀ {current : List Token}, place.Behind current → next.Behind (current ++ [token])) :
    State.Behind ⟨suspended, operands, next⟩ (tokens ++ [token]) := by
  obtain ⟨outer, chained, current, stack, earlier, here, rfl⟩ := behind
  refine ⟨outer, chained, current ++ [token], stack, earlier, extend here, ?_⟩
  simp only [List.append_assoc]

theorem State.Behind.start (behind : State.Behind ⟨suspended, operands, .term⟩ tokens)
    (started : next.Behind [token]) :
    State.Behind ⟨suspended, operands, next⟩ (tokens ++ [token]) := by
  refine behind.within fun {current} here => ?_
  have nothing : current = [] := here
  rwa [nothing]

/-- A move into a construct suspends the chain that it interrupts. -/
theorem State.Behind.into (behind : State.Behind ⟨suspended, operands, place⟩ tokens)
    (opened : ∀ {current : List Token}, place.Behind current →
      construct.Behind (current ++ [token])) :
    State.Behind ⟨⟨operands, construct⟩ :: suspended, [], .term⟩ (tokens ++ [token]) := by
  obtain ⟨outer, chained, current, stack, earlier, here, rfl⟩ := behind
  refine ⟨outer ++ (chained ++ (current ++ [token])), [], [], ?_, .none, rfl, ?_⟩
  · exact ⟨outer, chained, current ++ [token], stack, earlier, opened here, rfl⟩
  · simp only [List.append_assoc, List.append_nil]

/-- A move out of a construct makes a process of the chain inside it. -/
theorem State.Behind.outOf {inner : List ProcessTree} {latest : ProcessTree}
    (behind : State.Behind ⟨⟨operands, construct⟩ :: suspended, inner, .afterTerm latest⟩ tokens)
    (closed : ∀ {opening body : List Token}, construct.Behind opening →
      Derives (.process (chain inner latest)) body → next.Behind (opening ++ (body ++ [token]))) :
    State.Behind ⟨suspended, operands, next⟩ (tokens ++ [token]) := by
  obtain ⟨_, chained, current, ⟨outer, before, opening, stack, earlier, opened, rfl⟩, terms, here,
    rfl⟩ := behind
  have body := derives_of_chain terms here
  refine ⟨outer, before, _, stack, earlier, closed opened body, ?_⟩
  simp only [List.append_assoc]

end Moves

private theorem behind_of_close {construct : Construct} {inner : ProcessTree}
    {punctuation : Punctuation} {place : Place}
    (closes : construct.close inner punctuation = some place) {opening body : List Token}
    (opened : construct.Behind opening) (derived : Derives (.process inner) body) :
    place.Behind (opening ++ (body ++ [mark punctuation])) := by
  unfold Construct.close at closes
  split at closes
  all_goals cases closes
  · subst opened
    exact ⟨body, derived, rfl⟩
  · obtain ⟨channel, channelDerived, rfl⟩ := opened
    have whole := Derives.send (.name channelDerived) derived
    simpa only [Place.Behind, List.cons_append, List.append_assoc, List.nil_append] using whole
  · obtain ⟨list, earlier, rfl⟩ := opened
    refine ⟨_, .more earlier (.action (.name derived)), ?_⟩
    simp only [List.cons_append, List.append_assoc, List.nil_append]
  · obtain ⟨list, earlier, rfl⟩ := opened
    refine ⟨_, derives_of_actions earlier (.action (.name derived)), ?_⟩
    simp only [List.cons_append, List.append_assoc, List.nil_append]
  · next owner =>
      obtain ⟨header, headed, rfl⟩ := opened
      have block := Derives.block derived
      simp only [List.append_assoc, List.cons_append, List.nil_append]
      cases owner with
      | receive actions =>
          obtain ⟨list, bindings, rfl⟩ := headed
          have whole := Derives.receive bindings block
          simpa only [Place.Behind, BlockOwner.complete, List.cons_append, List.append_assoc,
            List.nil_append] using whole
      | restrict declarations =>
          obtain ⟨binder, list, names, rfl⟩ := headed
          have whole := Derives.restrict names block
          simpa only [Place.Behind, BlockOwner.complete, List.cons_append, List.append_assoc,
            List.nil_append] using whole
      | bundle =>
          subst headed
          exact .bundle block

theorem behind_of_moves {state next : State} {token : Token} (moves : Moves state token next)
    {tokens : List Token} (behind : state.Behind tokens) : next.Behind (tokens ++ [token]) := by
  cases moves with
  | nil => exact behind.start .nil
  | trueValue => exact behind.start (.literal .trueValue)
  | falseValue => exact behind.start (.literal .falseValue)
  | integer => exact behind.start (.literal (.integer _))
  | string => exact behind.start (.literal (.string _))
  | sendChannel =>
      refine behind.into fun {current} here => ?_
      have nothing : current = [] := here
      rw [nothing]
      rfl
  | receive => exact behind.start rfl
  | binder binder => exact behind.start ⟨[], .none, rfl⟩
  | bundle => exact behind.start rfl
  | nextTerm =>
      obtain ⟨outer, chained, current, stack, earlier, here, rfl⟩ := behind
      refine ⟨outer, _, [], stack, .more earlier here, rfl, ?_⟩
      simp only [List.append_assoc, List.append_nil]
  | close closes => exact behind.outOf (behind_of_close closes)
  | messageOpening =>
      refine behind.into fun here => ?_
      obtain ⟨inner, derived, rfl⟩ := here
      refine ⟨inner, derived, ?_⟩
      simp only [List.cons_append, List.append_assoc, List.nil_append]
  | actionsOpening =>
      refine behind.within fun {current} here => ⟨[], .none, ?_⟩
      have opened : current = [word .receive] := here
      rw [opened]
      rfl
  | actionName =>
      refine behind.within fun here => ?_
      obtain ⟨list, earlier, rfl⟩ := here
      exact ⟨list, earlier, rfl⟩
  | actionArrow =>
      refine behind.within fun here => ?_
      obtain ⟨list, earlier, rfl⟩ := here
      refine ⟨list, earlier, ?_⟩
      simp only [List.cons_append, List.append_assoc, List.nil_append]
  | actionAt =>
      refine behind.into fun here => ?_
      obtain ⟨list, earlier, rfl⟩ := here
      refine ⟨list, earlier, ?_⟩
      simp only [List.cons_append, List.append_assoc, List.nil_append]
  | blockOpening => exact behind.into fun here => ⟨_, here, rfl⟩
  | declaredName =>
      refine behind.within fun here => ?_
      obtain ⟨list, earlier, rfl⟩ := here
      exact ⟨list, earlier, rfl⟩
  | uriOpening =>
      refine behind.within fun here => ?_
      obtain ⟨list, earlier, rfl⟩ := here
      refine ⟨list, earlier, ?_⟩
      simp only [List.cons_append, List.append_assoc, List.nil_append]
  | plainComma =>
      refine behind.within fun here => ?_
      obtain ⟨list, earlier, rfl⟩ := here
      refine ⟨_, .more earlier (.plain _), ?_⟩
      simp only [List.cons_append, List.append_assoc, List.nil_append]
  | plainEnd =>
      refine behind.within fun here => ?_
      obtain ⟨list, earlier, rfl⟩ := here
      exact ⟨.new, _, derives_of_declarations earlier (.plain _), rfl⟩
  | uri =>
      refine behind.within fun here => ?_
      obtain ⟨list, earlier, rfl⟩ := here
      refine ⟨_, _, _, list, rfl, earlier, ?_⟩
      simp only [List.cons_append, List.append_assoc, List.nil_append]
  | uriClosing =>
      refine behind.within fun here => ?_
      obtain ⟨name, content, before, list, rfl, earlier, rfl⟩ := here
      refine ⟨_, before, list, _, rfl, earlier, .located _ name content, ?_⟩
      simp only [List.cons_append, List.append_assoc, List.nil_append]
  | locatedComma =>
      refine behind.within fun here => ?_
      obtain ⟨latest, before, list, final, rfl, earlier, last, rfl⟩ := here
      refine ⟨_, .more earlier last, ?_⟩
      simp only [List.cons_append, List.append_assoc]
  | locatedEnd =>
      refine behind.within fun here => ?_
      obtain ⟨latest, before, list, final, rfl, earlier, last, rfl⟩ := here
      exact ⟨_, _, derives_of_declarations earlier last, rfl⟩

theorem behind_of_run {state last : State} {before tokens : List Token}
    (behind : state.Behind before) (run : state.run tokens = some last) :
    last.Behind (before ++ tokens) := by
  induction tokens generalizing state before with
  | nil =>
      cases run
      rwa [List.append_nil]
  | cons token tokens induction =>
      obtain ⟨next, stepped, rest⟩ := Option.bind_eq_some_iff.1 run
      have extended := induction (behind_of_moves (moves_of_step stepped) behind) rest
      rwa [List.append_assoc, List.singleton_append] at extended

theorem derives_of_run {last : State} {tree : ProcessTree} {tokens : List Token}
    (run : State.start.run tokens = some last) (finished : last.finish? = some tree) :
    Derives (.process tree) tokens := by
  obtain ⟨outer, chained, current, stack, earlier, here, whole⟩ := behind_of_run behind_start run
  obtain ⟨suspended, operands, place⟩ := last
  unfold State.finish? at finished
  split at finished
  · next nothing after =>
      cases nothing
      cases after
      cases finished
      cases stack
      rw [List.nil_append, List.nil_append] at whole
      rw [whole]
      exact derives_of_chain earlier here
  · cases finished

end RhoFrontend.Reading
