import RhoFrontend.Proofs.Reprinting

/-!
The two words for a restriction, `new` and `lookup`. Nothing in a program depends on which of them
stands in a place, except that every name behind `lookup` has to have a uri. So the tokens of a
tree, with either word in any of these places, are tokens of the same tree or of none.
-/

namespace RhoFrontend

open Reading (Binder)
open Token (mark word)

namespace Token

theorem eq_of_reprinted {token other : Token} (same : other.reprinted = token)
    (notNew : token ≠ word .new) : other = token := by
  unfold reprinted at same
  split at same
  · exact absurd same.symm notNew
  · exact same

theorem eq_of_map_reprinted {tokens others : List Token} (same : others.map reprinted = tokens)
    (absent : word .new ∉ tokens) : others = tokens := by
  have each : ∀ other ∈ others, other.reprinted = id other := by
    intro other member
    have present : other.reprinted ∈ tokens := by
      rw [← same]
      exact List.mem_map_of_mem member
    apply Eq.symm
    apply eq_of_reprinted rfl
    intro isNew
    exact absent (isNew ▸ present)
  rw [← same, List.map_congr_left each, List.map_id]

theorem exists_binder_of_reprinted {token : Token} (same : token.reprinted = word .new) :
    ∃ binder, token = Grammar.binderWord binder := by
  unfold reprinted at same
  split at same
  · exact ⟨.lookup, rfl⟩
  · exact ⟨.new, same⟩

theorem keyword_not_mem_of_declarations (keyword : Keyword) (declarations : List Declaration) :
    word keyword ∉ ofDeclarations declarations := by
  have ofOne (declaration : Declaration) : word keyword ∉ ofDeclaration declaration := by
    obtain ⟨name, _ | resource⟩ := declaration
    · simp [ofDeclaration, word]
    · simp [ofDeclaration, word, mark]
  fun_induction ofDeclarations declarations with
  | case1 => exact List.not_mem_nil
  | case2 last => exact ofOne last
  | case3 first rest nonempty induction =>
      have separator : word keyword ≠ mark .comma := Token.noConfusion
      simp [ofOne first, separator, induction]

end Token

namespace Grammar

/-- What a word for a restriction declares when these tokens come behind it: the names up to the
word that ends the list of them. -/
def Declares (tokens : List Token) (declarations : List Declaration) : Prop :=
  ∃ binder names rest, tokens = names ++ word .within :: rest ∧
    Derives (.declarations binder declarations) names

/-- Every name that a `lookup` declares has a uri. -/
def LookupsLocated (tokens : List Token) : Prop :=
  ∀ before after declarations, tokens = before ++ word .lookup :: after →
    Declares after declarations → ∀ each ∈ declarations, each.uri.isSome = true

/-! A list of names is the same tokens behind either word. -/

theorem printed_declarations {binder : Binder} {declarations : List Declaration}
    {names : List Token} (derived : Derives (.declarations binder declarations) names) :
    names.map Token.reprinted = Token.ofDeclarations declarations := by
  rw [Token.of_declarations_eq_joined]
  exact (printed_of_derives derived).symm

theorem eq_of_declarations_of_derives {binder : Binder} {declarations : List Declaration}
    {names : List Token} (derived : Derives (.declarations binder declarations) names) :
    names = Token.ofDeclarations declarations := by
  apply Token.eq_of_map_reprinted (printed_declarations derived)
  exact Token.keyword_not_mem_of_declarations .new declarations

theorem derives_of_declarations {binder : Binder} {declarations : List Declaration}
    (nonempty : declarations ≠ [])
    (located : binder = .lookup → ∀ each ∈ declarations, each.uri.isSome = true) :
    Derives (.declarations binder declarations) (Token.ofDeclarations declarations) := by
  rw [Token.of_declarations_eq_joined]
  apply Token.derives_joined .lastDeclaration .moreDeclarations nonempty
  intro declaration member
  cases binder with
  | new => exact ProcessTree.derives_declaration declaration
  | lookup =>
      have known := located rfl declaration member
      obtain ⟨name, _ | resource⟩ := declaration
      · cases known
      · exact .located .lookup name resource

theorem located_of_derives_lookup {declarations : List Declaration} {names : List Token}
    (derived : Derives (.declarations .lookup declarations) names) :
    ∀ each ∈ declarations, each.uri.isSome = true := by
  generalize shape : Phrase.declarations .lookup declarations = phrase at derived
  induction derived generalizing declarations with
  | lastDeclaration last =>
      cases shape
      cases last
      exact List.forall_mem_singleton.2 rfl
  | moreDeclarations first others firstInduction induction =>
      cases shape
      cases first
      exact List.forall_mem_cons.2 ⟨rfl, induction rfl⟩
  | _ => cases shape

/-- Names are read in one way, so their tokens tell them apart. -/
theorem declarations_of_tokens {declarations others : List Declaration}
    (nonempty : declarations ≠ []) (othersNonempty : others ≠ [])
    (same : Token.ofDeclarations declarations = Token.ofDeclarations others) :
    declarations = others := by
  have derived : Derives (.declarations .new declarations) _ :=
    derives_of_declarations nonempty nofun
  have otherDerived : Derives (.declarations .new others) _ :=
    derives_of_declarations othersNonempty nofun
  rw [← same] at otherDerived
  have reached := Reading.reads_of_derives derived [] [] [] []
  rw [Reading.reads_of_derives otherDerived [] [] [] []] at reached
  simpa using reached.symm

theorem Declares.unique {tokens : List Token} {declarations others : List Declaration}
    (first : Declares tokens declarations) (second : Declares tokens others) :
    declarations = others := by
  obtain ⟨binder, names, rest, rfl, derived⟩ := first
  obtain ⟨otherBinder, otherNames, otherRest, same, otherDerived⟩ := second
  have shape := eq_of_declarations_of_derives derived
  have otherShape := eq_of_declarations_of_derives otherDerived
  subst shape otherShape
  have absent := Token.keyword_not_mem_of_declarations .within
  have pieces := congrArg (List.splitOn (word .within)) same
  rw [List.splitOn_append_cons_self_of_not_mem (absent declarations),
    List.splitOn_append_cons_self_of_not_mem (absent others)] at pieces
  apply declarations_of_tokens _ _ (List.cons.inj pieces).1
  · exact nonempty_of_derives derived
  · exact nonempty_of_derives otherDerived

theorem Declares.append {tokens : List Token} {declarations : List Declaration}
    (declares : Declares tokens declarations) (more : List Token) :
    Declares (tokens ++ more) declarations := by
  obtain ⟨binder, names, rest, rfl, derived⟩ := declares
  refine ⟨binder, names, rest ++ more, ?_, derived⟩
  rw [List.append_assoc, List.cons_append]

/-- The words for restrictions among the tokens make no difference to what is declared. -/
theorem Declares.of_same_print {tokens others : List Token} {declarations : List Declaration}
    (declares : Declares tokens declarations)
    (same : others.map Token.reprinted = tokens.map Token.reprinted) :
    Declares others declarations := by
  obtain ⟨binder, names, rest, rfl, derived⟩ := declares
  rw [List.map_append, List.map_cons, printed_declarations derived] at same
  obtain ⟨otherNames, behind, rfl, namesSame, behindSame⟩ := List.map_eq_append_iff.1 same
  obtain ⟨token, otherRest, rfl, tokenSame, -⟩ := List.map_eq_cons_iff.1 behindSame
  have absent := Token.keyword_not_mem_of_declarations .new declarations
  have isWithin : token = word .within := Token.eq_of_reprinted tokenSame nofun
  rw [Token.eq_of_map_reprinted namesSame absent, isWithin]
  rw [eq_of_declarations_of_derives derived] at derived
  exact ⟨binder, _, otherRest, rfl, derived⟩

namespace LookupsLocated

theorem separated {tokens rest : List Token} {separator : Token}
    (located : LookupsLocated (tokens ++ separator :: rest)) :
    LookupsLocated tokens ∧ LookupsLocated rest := by
  constructor
  · intro before after declarations split declares
    apply located before (after ++ separator :: rest) declarations
    · rw [split, List.append_assoc, List.cons_append]
    · exact declares.append _
  · intro before after declarations split declares
    apply located (tokens ++ separator :: before) after declarations
    · rw [split, List.append_assoc, List.cons_append]
    · exact declares

theorem behind {token : Token} {rest : List Token} (located : LookupsLocated (token :: rest)) :
    LookupsLocated rest := by
  have whole : LookupsLocated ([] ++ token :: rest) := located
  exact whole.separated.2

end LookupsLocated

end Grammar

/-! What a program has behind each of these words is read off its reading: from the place where a
name may be declared, the reading gets to the end of the program by no other way. -/

namespace Reading

open Grammar

section Finished

variable {last : State} {tree : ProcessTree} (finished : last.finish? = some tree)

include finished

/-- A reading goes on from every place but the one behind a term. -/
theorem exists_move {suspended : List Suspended} {operands : List ProcessTree} {place : Place}
    {tokens : List Token} (run : State.run ⟨suspended, operands, place⟩ tokens = some last)
    (inside : ∀ latest, place ≠ .afterTerm latest) :
    ∃ token rest next, tokens = token :: rest ∧ Moves ⟨suspended, operands, place⟩ token next ∧
      next.run rest = some last := by
  cases tokens with
  | nil =>
      cases run
      unfold State.finish? at finished
      split at finished
      · next latest nothing here => exact absurd here (inside latest)
      · cases finished
  | cons token rest =>
      obtain ⟨next, stepped, run⟩ := Option.bind_eq_some_iff.1 run
      exact ⟨token, rest, next, rfl, moves_of_step stepped, run⟩

variable {binder : Binder} {suspended : List Suspended} {operands : List ProcessTree}

/-- One name is read, and then a comma with another name behind it or the end of the list. -/
theorem exists_declaration {earlier : List Declaration} {tokens : List Token}
    (run : State.run ⟨suspended, operands, .declaredName binder earlier⟩ tokens = some last) :
    ∃ declaration names rest, Derives (.declaration binder declaration) names ∧
      (tokens = names ++ word .within :: rest ∨ tokens = names ++ mark .comma :: rest ∧
        State.run ⟨suspended, operands, .declaredName binder (declaration :: earlier)⟩ rest =
          some last) := by
  obtain ⟨_, tokens, _, rfl, moves, run⟩ := exists_move finished run nofun
  cases moves with | @declaredName _ _ _ _ name =>
  obtain ⟨_, tokens, _, rfl, moves, run⟩ := exists_move finished run nofun
  cases moves with
  | plainComma => exact ⟨_, _, tokens, .plain name, .inr ⟨rfl, run⟩⟩
  | plainEnd => exact ⟨_, _, tokens, .plain name, .inl rfl⟩
  | uriOpening =>
      obtain ⟨_, tokens, _, rfl, moves, run⟩ := exists_move finished run nofun
      cases moves with | @uri _ _ _ _ _ resource =>
      obtain ⟨_, tokens, _, rfl, moves, run⟩ := exists_move finished run nofun
      cases moves with | uriClosing =>
      obtain ⟨_, tokens, _, rfl, moves, run⟩ := exists_move finished run nofun
      have derived := Derives.located binder name resource
      cases moves with
      | locatedComma => exact ⟨_, _, tokens, derived, .inr ⟨rfl, run⟩⟩
      | locatedEnd => exact ⟨_, _, tokens, derived, .inl rfl⟩

theorem exists_declarations {earlier : List Declaration} {tokens : List Token}
    (run : State.run ⟨suspended, operands, .declaredName binder earlier⟩ tokens = some last) :
    ∃ declarations names rest, tokens = names ++ word .within :: rest ∧
      Derives (.declarations binder declarations) names := by
  -- A name takes up to five tokens with its comma, so the induction is on how many are left.
  induction length : tokens.length using Nat.strong_induction_on generalizing tokens earlier with
  | _ size induction =>
      obtain ⟨declaration, names, rest, derived, rfl | ⟨rfl, later⟩⟩ :=
        exists_declaration finished run
      · exact ⟨[declaration], names, rest, rfl, .lastDeclaration derived⟩
      · have shorter : rest.length < size := by
          rw [← length, List.length_append, List.length_cons]
          omega
        obtain ⟨declarations, others, rest, rfl, derivedOthers⟩ :=
          induction rest.length shorter later rfl
        refine ⟨declaration :: declarations, _, rest, ?_, .moreDeclarations derived derivedOthers⟩
        rw [List.append_assoc, List.cons_append]

end Finished

/-- Either word is read before a term only, and a name comes next. -/
theorem next_of_binder {state next : State} {binder : Binder}
    (moves : Moves state (binderWord binder) next) :
    ∃ suspended operands, next = ⟨suspended, operands, .declaredName binder []⟩ := by
  generalize isBinder : binderWord binder = token at moves
  cases moves with
  | @binder suspended operands other =>
      cases binder <;> cases other <;> first | exact ⟨suspended, operands, rfl⟩ | cases isBinder
  | _ => cases binder <;> cases isBinder

end Reading

namespace Grammar

open Reading

/-- Behind each of the two words a program has the names that the word asks for. -/
theorem exists_declarations_of_process {tree : ProcessTree} {before after : List Token}
    {binder : Binder} (derived : Derives (.process tree) (before ++ binderWord binder :: after)) :
    ∃ declarations names rest, after = names ++ word .within :: rest ∧
      Derives (.declarations binder declarations) names := by
  obtain ⟨last, run, finished⟩ := run_of_derives derived
  rw [State.run_append] at run
  obtain ⟨state, -, run⟩ := Option.bind_eq_some_iff.1 run
  obtain ⟨next, stepped, run⟩ := Option.bind_eq_some_iff.1 run
  obtain ⟨suspended, operands, rfl⟩ := next_of_binder (moves_of_step stepped)
  exact exists_declarations finished run

theorem exists_unique_declares {tree : ProcessTree} {before after : List Token} {binder : Binder}
    (derived : Derives (.process tree) (before ++ binderWord binder :: after)) :
    ∃! declarations, Declares after declarations := by
  obtain ⟨declarations, names, rest, split, names⟩ := exists_declarations_of_process derived
  have declares : Declares after declarations := ⟨binder, _, rest, split, names⟩
  exact ⟨declarations, declares, fun others second => second.unique declares⟩

theorem located_of_process {tree : ProcessTree} {tokens : List Token}
    (derived : Derives (.process tree) tokens) : LookupsLocated tokens := by
  rintro before after others rfl second
  have behindLookup : Derives (.process tree) (before ++ binderWord .lookup :: after) := derived
  obtain ⟨declarations, names, rest, split, names⟩ := exists_declarations_of_process behindLookup
  have declares : Declares after declarations := ⟨.lookup, _, rest, split, names⟩
  rw [second.unique declares]
  exact located_of_derives_lookup names

end Grammar

/-! The other way round, from a tree to all the tokens that it can come from: what holds of the
tokens as they are printed holds with any of the two words in the place of the other. -/

namespace Grammar

/-- This holds of all tokens that are printed as these, if the names behind `lookup` have uris. -/
structure Reread (holds : List Token → Prop) (tokens : List Token) : Prop where
  held {others : List Token} (same : others.map Token.reprinted = tokens)
    (located : LookupsLocated others) : holds others

namespace Reread

variable {holds inner : List Token → Prop} {tokens rest : List Token} {first separator : Token}

theorem fixed (absent : word .new ∉ tokens) (held : holds tokens) : Reread holds tokens := by
  constructor
  intro others same located
  rwa [Token.eq_of_map_reprinted same absent]

theorem behind (notNew : first ≠ word .new)
    (reread : Reread (fun rest => holds (first :: rest)) tokens) :
    Reread holds (first :: tokens) := by
  constructor
  intro others same located
  obtain ⟨token, behind, rfl, tokenSame, behindSame⟩ := List.map_eq_cons_iff.1 same
  rw [Token.eq_of_reprinted tokenSame notNew]
  exact reread.held behindSame located.behind

theorem separated (notNew : separator ≠ word .new) (left : Reread inner tokens)
    (right : ∀ other, inner other → Reread (fun rest => holds (other ++ separator :: rest)) rest) :
    Reread holds (tokens ++ separator :: rest) := by
  constructor
  intro others same located
  obtain ⟨other, behind, rfl, otherSame, behindSame⟩ := List.map_eq_append_iff.1 same
  obtain ⟨token, behind, rfl, tokenSame, behindSame⟩ := List.map_eq_cons_iff.1 behindSame
  rw [Token.eq_of_reprinted tokenSame notNew]
  obtain ⟨otherLocated, behindLocated⟩ := located.separated
  exact (right other (left.held otherSame otherLocated)).held behindSame behindLocated

theorem mono {weaker : List Token → Prop} (reread : Reread holds tokens)
    (weaken : ∀ {others}, holds others → weaker others) : Reread weaker tokens := by
  constructor
  intro others same located
  exact weaken (reread.held same located)

theorem joined {Item : Type} {item : Item → Phrase} {list : List Item → Phrase}
    {tokens : Item → List Token} (notNew : separator ≠ word .new)
    (last : ∀ {only : Item} {text : List Token}, Derives (item only) text →
      Derives (list [only]) text)
    (more : ∀ {first : Item} {others : List Item} {text rest : List Token},
      Derives (item first) text → Derives (list others) rest →
        Derives (list (first :: others)) (text ++ separator :: rest))
    {items : List Item} (nonempty : items ≠ [])
    (all : ∀ each ∈ items, Reread (Derives (item each)) (tokens each)) :
    Reread (Derives (list items)) (Token.joined separator (items.map tokens)) := by
  induction items with
  | nil => exact absurd rfl nonempty
  | cons first rest induction =>
      obtain ⟨head, others⟩ := List.forall_mem_cons.1 all
      cases rest with
      | nil => exact head.mono last
      | cons second rest =>
          have tail := induction (List.cons_ne_nil second rest) others
          apply separated notNew head
          intro text derived
          exact tail.mono (more derived)

theorem name {channel : ProcessTree} (reread : Reread (Derives (.process channel)) tokens) :
    Reread (Derives (.name channel)) (mark .atSign :: tokens) :=
  behind (by decide) (reread.mono .name)

theorem block {body : ProcessTree} (reread : Reread (Derives (.process body)) tokens) :
    Reread (Derives (.block body)) (mark .openBrace :: (tokens ++ [mark .closeBrace])) := by
  apply behind (by decide)
  apply separated (by decide) reread
  intro other derived
  exact fixed List.not_mem_nil (.block derived)

theorem action {action : Action}
    (reread : Reread (Derives (.process action.channel)) action.channel.tokens) :
    Reread (Derives (.action action)) action.tokens := by
  obtain ⟨⟨bound⟩, channel⟩ := action
  apply behind Token.noConfusion
  apply behind (by decide)
  exact reread.name.mono .action

/-- Either word may have stood where `new` is printed, but `lookup` only before names with uris. -/
theorem restrict {declarations : List Declaration} {body : ProcessTree}
    (nonempty : declarations ≠ []) (inner : Reread (Derives (.block body)) rest) :
    Reread (Derives (.term (.restrict declarations body)))
      (word .new :: (Token.ofDeclarations declarations ++ word .within :: rest)) := by
  have absent := Token.keyword_not_mem_of_declarations .new declarations
  have names : Reread (· = Token.ofDeclarations declarations) (Token.ofDeclarations declarations) :=
    fixed absent rfl
  constructor
  intro others same located
  obtain ⟨token, behind, rfl, tokenSame, behindSame⟩ := List.map_eq_cons_iff.1 same
  obtain ⟨binder, rfl⟩ := Token.exists_binder_of_reprinted tokenSame
  have namesFirst : Reread (fun behind => ∃ later, Derives (.block body) later ∧
      behind = Token.ofDeclarations declarations ++ word .within :: later)
      (Token.ofDeclarations declarations ++ word .within :: rest) := by
    apply separated (by decide) names
    rintro _ rfl
    exact inner.mono fun {later} derived => ⟨later, derived, rfl⟩
  obtain ⟨later, derived, rfl⟩ := namesFirst.held behindSame located.behind
  have declares : Declares (Token.ofDeclarations declarations ++ word .within :: later)
      declarations :=
    ⟨.new, _, later, rfl, derives_of_declarations nonempty nofun⟩
  apply Derives.restrict (derives_of_declarations nonempty _) derived
  rintro rfl
  exact located [] _ declarations rfl declares

end Reread

end Grammar

namespace ProcessTree

open Grammar

/-- Whatever is printed like a tree is read as it, unless a `lookup` declares a name without a
uri. -/
theorem reread_tokens {tree : ProcessTree} (printable : tree.Printable) :
    Reread (Derives (.process tree)) tree.tokens := by
  induction printable with
  | nil => exact .fixed (by simp [tokens, word]) (.single .nil)
  | @ground value readsBack =>
      apply Reread.fixed _ (derives_tokens (.ground readsBack))
      rcases value with value | content | _ | _ <;> simp [tokens, Token.ofGround, word]
  | @send channel message name content channelReread contentReread =>
      apply Reread.separated (by decide) channelReread.name
      intro channelTokens channelDerived
      apply Reread.behind (by decide)
      apply Reread.separated (by decide) contentReread
      intro contentTokens contentDerived
      exact .fixed List.not_mem_nil (.single (.send channelDerived contentDerived))
  | @receive actions body nonempty names channels inner channelsReread innerReread =>
      have bindings : Reread (Derives (.actions actions)) (Action.listTokens actions) := by
        rw [Action.list_tokens_eq_joined]
        apply Reread.joined (by decide) .lastAction .moreActions nonempty
        exact fun action member => (channelsReread action member).action
      apply Reread.behind (by decide)
      apply Reread.behind (by decide)
      apply Reread.separated (by decide) bindings
      intro bindingTokens bindingsDerived
      exact innerReread.block.mono fun derived => .single (.receive bindingsDerived derived)
  | @par operands several flat all allReread =>
      have nonempty := List.ne_nil_of_length_pos (Nat.lt_of_lt_of_le Nat.zero_lt_two several)
      rw [tokens, list_tokens_eq_joined]
      have terms : Reread (Derives (.terms operands))
          (Token.joined (mark .pipe) (operands.map tokens)) := by
        apply Reread.joined (by decide) .lastTerm .moreTerms nonempty
        intro operand member
        have single := flat operand member
        exact (allReread operand member).mono fun derived => derives_term_of_process derived single
      exact terms.mono (.parallel several)
  | @restrict declarations body nonempty readBack inner innerReread =>
      exact (Reread.restrict nonempty innerReread.block).mono .single
  | @bundle body inner innerReread =>
      apply Reread.behind (by decide)
      exact innerReread.block.mono fun derived => .single (.bundle derived)

end ProcessTree

namespace Grammar

theorem process_unique {left right : ProcessTree} {tokens : List Token}
    (derived : Derives (.process left) tokens) (other : Derives (.process right) tokens) :
    left = right := by
  obtain ⟨last, run, finished⟩ := Reading.run_of_derives derived
  obtain ⟨otherLast, otherRun, otherFinished⟩ := Reading.run_of_derives other
  rw [run] at otherRun
  cases otherRun
  rw [finished] at otherFinished
  exact Option.some.inj otherFinished

/-- With other words for its restrictions a program is still that program if every name that a
`lookup` declares has a uri, and otherwise it is none. -/
theorem derives_iff_of_same_print {tree other : ProcessTree} {tokens others : List Token}
    (derived : Derives (.process tree) tokens) (readBack : Token.AllReadBack tokens)
    (same : others.map Token.reprinted = tokens.map Token.reprinted) :
    Derives (.process other) others ↔ other = tree ∧ LookupsLocated others := by
  have printed : tree.tokens = tokens.map Token.reprinted := printed_of_derives derived
  have reread := ProcessTree.reread_tokens (printable_of_derives derived readBack)
  rw [printed] at reread
  constructor
  · intro otherDerived
    have located := located_of_process otherDerived
    exact ⟨process_unique otherDerived (reread.held same located), located⟩
  · rintro ⟨rfl, located⟩
    exact reread.held same located

end Grammar

end RhoFrontend
