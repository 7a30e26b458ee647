import RhoFrontend.Proofs.Lexing
import RhoFrontend.Proofs.Printing

/-!
What a tree remembers of the source it was read from: every token in its place, except that the two
words for a restriction are one. So each parsed tree has a source text of its own, made of the same
tokens.
-/

namespace RhoFrontend

open Grammar
open Token (mark word)

namespace Token

/-- The token that the printer writes for this one. Only the older word for a restriction has no
print of its own. -/
def reprinted : Token → Token
  | .keyword .lookup => word .new
  | token => token

theorem reprinted_binder (binder : Reading.Binder) :
    (binderWord binder).reprinted = word .new := by
  cases binder <;> rfl

theorem word_cases (letters : List Char) :
    (∃ keyword, Lexeme.ofWord letters = .keyword keyword) ∨
      Lexeme.ofWord letters = .identifier (String.ofList letters) := by
  unfold Lexeme.ofWord
  cases Keyword.ofSpelling? (String.ofList letters) with
  | none => exact .inr rfl
  | some keyword => exact .inl ⟨keyword, rfl⟩

/-- A token that came from some text is read again from the text that is printed for it. -/
theorem reads_back_of_spelled {token : Token} {text : List Char} (spelled : token.Spelled text) :
    token.ReadsBack := by
  cases spelled with
  | @word first rest starts parts =>
      have written := Spelled.word starts parts
      rcases word_cases (first :: rest) with ⟨keyword, read⟩ | read
      · rw [read]
        exact word_reads_back keyword
      · rw [read] at written ⊢
        rwa [ReadsBack, spelling, String.toList_ofList]
  | integer => exact integer_reads_back _
  | @string content unquoted =>
      apply string_reads_back
      rwa [String.toList_ofList]
  | @uri content unquoted =>
      apply uri_reads_back
      rwa [String.toList_ofList]
  | arrow => exact mark_reads_back .leftArrow
  | @single char punctuation known => exact mark_reads_back punctuation

theorem unquoted_of_spelled_string {content : String} {text : List Char}
    (spelled : Spelled (.string content) text) : '"' ∉ content.toList := by
  generalize shape : Token.string content = token at spelled
  cases spelled with
  | @word first rest =>
      rcases word_cases (first :: rest) with ⟨keyword, read⟩ | read <;> rw [read] at shape <;>
        cases shape
  | string unquoted =>
      cases shape
      rwa [String.toList_ofList]
  | _ => cases shape

theorem unquoted_of_spelled_uri {content : String} {text : List Char}
    (spelled : Spelled (.uri content) text) : '\x60' ∉ content.toList := by
  generalize shape : Token.uri content = token at spelled
  cases spelled with
  | @word first rest =>
      rcases word_cases (first :: rest) with ⟨keyword, read⟩ | read <;> rw [read] at shape <;>
        cases shape
  | uri unquoted =>
      cases shape
      rwa [String.toList_ofList]
  | _ => cases shape

end Token

/-! Nothing is in the way of printing a tree that the grammar has a place for. -/

namespace Unprintable

theorem of_name_eq_nil {name : String} (readsBack : (Token.identifier name).ReadsBack) :
    ofName name = [] := by
  have read : (Piece.ofText name.toList).map Piece.lexeme = [.token (.identifier name)] :=
    Piece.lexemes_eq_token_iff.2 readsBack
  simp only [ofName, read]

theorem of_ground_eq_nil {value : Ground} (readsBack : (Token.ofGround value).ReadsBack) :
    ofGround value = [] := by
  cases value with
  | string content => exact if_neg (Token.unquoted_of_spelled_string readsBack)
  | int | bool => rfl

theorem of_declaration_eq_nil {declaration : Declaration}
    (readBack : Token.AllReadBack (Token.ofDeclaration declaration)) :
    ofDeclaration declaration = [] := by
  obtain ⟨name, uri⟩ := declaration
  cases uri with
  | none =>
      have nameRead : (Token.identifier name).ReadsBack :=
        readBack _ (by simp [Token.ofDeclaration])
      simp [ofDeclaration, of_name_eq_nil nameRead]
  | some resource =>
      have nameRead : (Token.identifier name).ReadsBack :=
        readBack _ (by simp [Token.ofDeclaration])
      have uriRead : (Token.uri resource).ReadsBack := readBack _ (by simp [Token.ofDeclaration])
      have unquoted := Token.unquoted_of_spelled_uri uriRead
      simp [ofDeclaration, of_name_eq_nil nameRead, ofUri, unquoted]

end Unprintable

namespace ProcessTree

private theorem actions_clean {actions : List Action}
    (names : ∀ action ∈ actions, (Token.identifier action.pattern.name).ReadsBack)
    (channels : ∀ action ∈ actions, action.channel.unprintable = []) :
    Action.listUnprintable actions = [] := by
  induction actions with
  | nil => rfl
  | cons first rest induction =>
      obtain ⟨nameRead, otherNames⟩ := List.forall_mem_cons.1 names
      obtain ⟨channelClean, otherChannels⟩ := List.forall_mem_cons.1 channels
      have others := induction otherNames otherChannels
      obtain ⟨pattern, channel⟩ := first
      simp only [Action.listUnprintable, Pattern.boundNames, List.flatMap_singleton,
        Unprintable.of_name_eq_nil nameRead, channelClean, others, List.append_nil]

private theorem operands_clean {operands : List ProcessTree}
    (flat : ∀ operand ∈ operands, operand.isPar = false)
    (all : ∀ operand ∈ operands, operand.unprintable = []) :
    listUnprintable operands = [] := by
  induction operands with
  | nil => rfl
  | cons first rest induction =>
      obtain ⟨single, othersFlat⟩ := List.forall_mem_cons.1 flat
      obtain ⟨clean, othersClean⟩ := List.forall_mem_cons.1 all
      have others := induction othersFlat othersClean
      simp [listUnprintable, single, clean, others]

theorem clean_of_printable {tree : ProcessTree} (printable : tree.Printable) :
    tree.unprintable = [] := by
  induction printable with
  | nil => rfl
  | ground readsBack => exact Unprintable.of_ground_eq_nil readsBack
  | send name content channelClean messageClean =>
      rw [unprintable, channelClean, messageClean, List.append_nil]
  | receive nonempty names channels inner channelsClean innerClean =>
      simp [unprintable, nonempty, actions_clean names channelsClean, innerClean]
  | par several flat all allClean =>
      have enough := Nat.not_lt.2 several
      simp only [unprintable, enough, if_false, List.nil_append]
      exact operands_clean flat allClean
  | @restrict declarations body nonempty readBack inner innerClean =>
      have clean : declarations.flatMap Unprintable.ofDeclaration = [] := by
        rw [List.flatMap_eq_nil_iff]
        intro declaration member
        exact Unprintable.of_declaration_eq_nil (readBack declaration member)
      simp [unprintable, nonempty, clean, innerClean]
  | bundle inner innerClean => exact innerClean

theorem to_source_of_printable {tree : ProcessTree} (printable : tree.Printable) :
    tree.toSource = .ok (String.ofList (SourceText.ofTokens tree.tokens)) := by
  rw [toSource, clean_of_printable printable]

end ProcessTree

/-! A derivation is followed once for what can be printed and once for the tokens. -/

namespace Grammar

/-- A list as the grammar has it: with at least one item, each of which has the property. -/
def Listed {Item : Type} (holds : Item → Prop) (items : List Item) : Prop :=
  items ≠ [] ∧ ∀ item ∈ items, holds item

theorem listed_singleton {Item : Type} {holds : Item → Prop} {only : Item} (held : holds only) :
    Listed holds [only] :=
  ⟨List.cons_ne_nil only [], List.forall_mem_singleton.2 held⟩

theorem listed_cons {Item : Type} {holds : Item → Prop} {first : Item} {others : List Item}
    (held : holds first) (listed : Listed holds others) : Listed holds (first :: others) :=
  ⟨List.cons_ne_nil first others, List.forall_mem_cons.2 ⟨held, listed.2⟩⟩

def PrintableTerm (tree : ProcessTree) : Prop := tree.isPar = false ∧ tree.Printable

def PrintableAction (action : Action) : Prop :=
  (Token.identifier action.pattern.name).ReadsBack ∧ action.channel.Printable

def PrintableDeclaration (declaration : Declaration) : Prop :=
  Token.AllReadBack (Token.ofDeclaration declaration)

/-- What a phrase puts into a tree can be printed there. -/
def Phrase.Printable : Phrase → Prop
  | .process tree | .name tree | .block tree => tree.Printable
  | .term tree => PrintableTerm tree
  | .terms trees => Listed PrintableTerm trees
  | .ground value => (Token.ofGround value).ReadsBack
  | .action binding => PrintableAction binding
  | .actions bindings => Listed PrintableAction bindings
  | .declaration _ declared => PrintableDeclaration declared
  | .declarations _ declared => Listed PrintableDeclaration declared

private theorem separated_read_back {separator : Token} {tokens rest : List Token}
    (readBack : Token.AllReadBack (tokens ++ separator :: rest)) :
    Token.AllReadBack tokens ∧ Token.AllReadBack rest := by
  obtain ⟨left, right⟩ := (Token.all_read_back_append _ _).1 readBack
  exact ⟨left, ((Token.all_read_back_cons _ _).1 right).2⟩

theorem printable_of_derives {phrase : Phrase} {tokens : List Token}
    (derived : Derives phrase tokens) (readBack : Token.AllReadBack tokens) :
    phrase.Printable := by
  induction derived with
  | single _ only => exact (only readBack).2
  | parallel several _ all =>
      obtain ⟨-, printable⟩ := all readBack
      apply ProcessTree.Printable.par several
      · exact fun operand member => (printable operand member).1
      · exact fun operand member => (printable operand member).2
  | lastTerm _ last => exact listed_singleton (last readBack)
  | moreTerms _ _ first others =>
      obtain ⟨firstRead, othersRead⟩ := separated_read_back readBack
      exact listed_cons (first firstRead) (others othersRead)
  | nil => exact ⟨rfl, .nil⟩
  | literal _ ground => exact ⟨rfl, .ground (ground readBack)⟩
  | send _ _ channel message =>
      obtain ⟨channelRead, opened⟩ := separated_read_back readBack
      obtain ⟨-, messageRead⟩ := (Token.all_read_back_cons _ _).1 opened
      obtain ⟨messageRead, -⟩ := separated_read_back messageRead
      exact ⟨rfl, .send (channel channelRead) (message messageRead)⟩
  | receive _ _ bindings body =>
      simp only [Token.all_read_back_cons] at readBack
      obtain ⟨bindingsRead, bodyRead⟩ := separated_read_back readBack.2.2
      obtain ⟨nonempty, printable⟩ := bindings bindingsRead
      refine ⟨rfl, .receive nonempty ?_ ?_ (body bodyRead)⟩
      · exact fun action member => (printable action member).1
      · exact fun action member => (printable action member).2
  | restrict _ _ names body =>
      obtain ⟨-, opened⟩ := (Token.all_read_back_cons _ _).1 readBack
      obtain ⟨namesRead, bodyRead⟩ := separated_read_back opened
      obtain ⟨nonempty, printable⟩ := names namesRead
      exact ⟨rfl, .restrict nonempty printable (body bodyRead)⟩
  | bundle _ body =>
      obtain ⟨-, bodyRead⟩ := (Token.all_read_back_cons _ _).1 readBack
      exact ⟨rfl, .bundle (body bodyRead)⟩
  | integer value | string content => exact readBack _ List.mem_cons_self
  | trueValue => exact Token.word_reads_back .trueValue
  | falseValue => exact Token.word_reads_back .falseValue
  | name _ channel => exact channel ((Token.all_read_back_cons _ _).1 readBack).2
  | action _ channel =>
      simp only [Token.all_read_back_cons] at readBack
      obtain ⟨nameRead, -, channelRead⟩ := readBack
      exact ⟨nameRead, channel channelRead⟩
  | lastAction _ last => exact listed_singleton (last readBack)
  | moreActions _ _ first others =>
      obtain ⟨firstRead, othersRead⟩ := separated_read_back readBack
      exact listed_cons (first firstRead) (others othersRead)
  | plain name => exact readBack
  | located binder name resource => exact readBack
  | lastDeclaration _ last => exact listed_singleton (last readBack)
  | moreDeclarations _ _ first others =>
      obtain ⟨firstRead, othersRead⟩ := separated_read_back readBack
      exact listed_cons (first firstRead) (others othersRead)
  | block _ body =>
      obtain ⟨-, opened⟩ := (Token.all_read_back_cons _ _).1 readBack
      exact body (separated_read_back opened).1

/-- The tokens that a phrase is printed as. -/
def Phrase.printed : Phrase → List Token
  | .process tree | .term tree => tree.tokens
  | .terms trees => Token.joined (mark .pipe) (trees.map ProcessTree.tokens)
  | .ground value => [Token.ofGround value]
  | .name channel => mark .atSign :: channel.tokens
  | .action binding => binding.tokens
  | .actions bindings => Token.joined (mark .semicolon) (bindings.map Action.tokens)
  | .declaration _ declared => Token.ofDeclaration declared
  | .declarations _ declared => Token.joined (mark .comma) (declared.map Token.ofDeclaration)
  | .block body => mark .openBrace :: (body.tokens ++ [mark .closeBrace])

/-- The phrases that are lists have an item. -/
def Phrase.Nonempty : Phrase → Prop
  | .terms trees => trees ≠ []
  | .actions bindings => bindings ≠ []
  | .declarations _ declared => declared ≠ []
  | _ => True

theorem nonempty_of_derives {phrase : Phrase} {tokens : List Token}
    (derived : Derives phrase tokens) : phrase.Nonempty := by
  cases derived with
  | lastTerm | moreTerms | lastAction | moreActions | lastDeclaration | moreDeclarations =>
      exact List.cons_ne_nil _ _
  | _ => trivial

private theorem joined_more {Item : Type} {tokens : Item → List Token} {first : Item}
    {others : List Item} {punctuation : Punctuation} {head rest : List Token}
    (nonempty : others ≠ []) (same : tokens first = head.map Token.reprinted)
    (othersSame : Token.joined (mark punctuation) (others.map tokens) =
      rest.map Token.reprinted) :
    Token.joined (mark punctuation) ((first :: others).map tokens) =
      (head ++ mark punctuation :: rest).map Token.reprinted := by
  obtain ⟨second, later, rfl⟩ := List.exists_cons_of_ne_nil nonempty
  have separated : (mark punctuation :: rest).map Token.reprinted =
      mark punctuation :: rest.map Token.reprinted := rfl
  rw [List.map_append, separated, ← same, ← othersSame]
  rfl

/-- The tree that a phrase is reduced to is printed as the tokens of the phrase. -/
theorem printed_of_derives {phrase : Phrase} {tokens : List Token}
    (derived : Derives phrase tokens) : phrase.printed = tokens.map Token.reprinted := by
  induction derived with
  | single _ only => exact only
  | parallel several _ all =>
      rw [Phrase.printed, ProcessTree.tokens, ProcessTree.list_tokens_eq_joined]
      exact all
  | lastTerm _ last => exact last
  | moreTerms _ derivedOthers first others =>
      exact joined_more (nonempty_of_derives derivedOthers) first others
  | nil => rfl
  | literal _ ground => exact ground
  | @send channel message tokens rest _ _ channelSame messageSame =>
      have channelTokens : mark .atSign :: channel.tokens = tokens.map Token.reprinted :=
        channelSame
      have messageTokens : message.tokens = rest.map Token.reprinted := messageSame
      simp only [List.map_append, List.map_cons, ← channelTokens, ← messageTokens]
      rfl
  | @receive bindings body tokens rest _ _ bindingsSame bodySame =>
      have bindingTokens : Action.listTokens bindings = tokens.map Token.reprinted := by
        rw [Action.list_tokens_eq_joined]
        exact bindingsSame
      have blockTokens : mark .openBrace :: (body.tokens ++ [mark .closeBrace]) =
          rest.map Token.reprinted := bodySame
      simp only [List.map_append, List.map_cons, ← bindingTokens, ← blockTokens]
      rfl
  | @restrict binder declared body tokens rest _ _ namesSame bodySame =>
      have nameTokens : Token.ofDeclarations declared = tokens.map Token.reprinted := by
        rw [Token.of_declarations_eq_joined]
        exact namesSame
      have blockTokens : mark .openBrace :: (body.tokens ++ [mark .closeBrace]) =
          rest.map Token.reprinted := bodySame
      simp only [List.map_append, List.map_cons, ← nameTokens, ← blockTokens,
        Token.reprinted_binder]
      rfl
  | @bundle body tokens _ bodySame =>
      have blockTokens : mark .openBrace :: (body.tokens ++ [mark .closeBrace]) =
          tokens.map Token.reprinted := bodySame
      rw [List.map_cons, ← blockTokens]
      rfl
  | integer | string | trueValue | falseValue => rfl
  | @name channel tokens _ channelSame =>
      have channelTokens : channel.tokens = tokens.map Token.reprinted := channelSame
      rw [List.map_cons, ← channelTokens]
      rfl
  | @action bound channel tokens _ channelSame =>
      have channelTokens : mark .atSign :: channel.tokens = tokens.map Token.reprinted :=
        channelSame
      rw [List.map_cons, List.map_cons, ← channelTokens]
      rfl
  | lastAction _ last => exact last
  | moreActions _ derivedOthers first others =>
      exact joined_more (nonempty_of_derives derivedOthers) first others
  | plain | located => rfl
  | lastDeclaration _ last => exact last
  | moreDeclarations _ derivedOthers first others =>
      exact joined_more (nonempty_of_derives derivedOthers) first others
  | @block body tokens _ bodySame =>
      have bodyTokens : body.tokens = tokens.map Token.reprinted := bodySame
      rw [List.map_cons, List.map_append, ← bodyTokens]
      rfl

end Grammar

/-- The tokens of a parsed source are those of the derivation, and each came from some text. -/
theorem exists_derivation_of_parse {options : Options} {source : String} {tree : ProcessTree}
    (parsed : ProcessTree.parse options source = .ok tree) :
    ∃ spanned, SpannedToken.ofSource options source.toList = .ok spanned ∧
      Derives (.process tree) (spanned.map SpannedToken.token) ∧
        Token.AllReadBack (spanned.map SpannedToken.token) := by
  cases lexed : SpannedToken.ofSource options source.toList with
  | error error =>
      rw [parse_ok_iff_derivations, ProcessTree.derivations, lexed] at parsed
      cases parsed
  | ok spanned =>
      rw [parse_ok_iff_derivations, derivations_ok_iff lexed] at parsed
      obtain ⟨_, ⟨⟩, derived⟩ := parsed
      refine ⟨spanned, rfl, derived, ?_⟩
      intro token member
      obtain ⟨each, inside, rfl⟩ := List.mem_map.1 member
      obtain ⟨text, spelled⟩ := SpannedToken.exists_spelled lexed inside
      exact Token.reads_back_of_spelled spelled

/-- Parsing forgets nothing but trivia, the spelling of integers and the older word for a
restriction: the tree can be printed, and the printed text has the tokens of the source, each in its
place. -/
theorem reprinting_keeps_tokens (options : Options) (source : String) (tree : ProcessTree)
    (parsed : ProcessTree.parse options source = .ok tree) :
    ∃ text spanned, tree.toSource = .ok text ∧
      SpannedToken.ofSource options source.toList = .ok spanned ∧
        ∀ other : Options, ∃ printed, SpannedToken.ofSource other text.toList = .ok printed ∧
          printed.map SpannedToken.token =
            (spanned.map SpannedToken.token).map Token.reprinted := by
  obtain ⟨spanned, lexed, derived, readBack⟩ := exists_derivation_of_parse parsed
  have printable : tree.Printable := printable_of_derives derived readBack
  have same : tree.tokens = (spanned.map SpannedToken.token).map Token.reprinted :=
    printed_of_derives derived
  refine ⟨_, spanned, ProcessTree.to_source_of_printable printable, lexed, ?_⟩
  intro other
  obtain ⟨printed, read, tokens⟩ := SourceText.exists_spanned_of_tokens other
    (ProcessTree.tokens_read_back printable) (ProcessTree.tokens_apart printable)
  refine ⟨printed, ?_, tokens.trans same⟩
  rwa [String.toList_ofList]

/-- Trivia, a plus sign and leading zeros are gone, and the older word has become the newer one. -/
theorem reprinting_keeps_tokens_of_lookup :
    ProcessTree.parse ⟨true⟩ "lookup x(`u`) in /*c*/ {+007|Nil}//\n" =
        .ok (.restrict [⟨"x", some "u"⟩] (.par [.ground (.int 7), .nil])) ∧
      ∃ text spanned, ProcessTree.toSource
          (.restrict [⟨"x", some "u"⟩] (.par [.ground (.int 7), .nil])) = .ok text ∧
        SpannedToken.ofSource ⟨true⟩ "lookup x(`u`) in /*c*/ {+007|Nil}//\n".toList =
          .ok spanned ∧
        ∃ printed, SpannedToken.ofSource {} text.toList = .ok printed ∧
          printed.map SpannedToken.token =
            (spanned.map SpannedToken.token).map Token.reprinted := by
  have parsed : ProcessTree.parse ⟨true⟩ "lookup x(`u`) in /*c*/ {+007|Nil}//\n" =
      .ok (.restrict [⟨"x", some "u"⟩] (.par [.ground (.int 7), .nil])) := by cbv
  obtain ⟨text, spanned, printed, lexed, kept⟩ := reprinting_keeps_tokens _ _ _ parsed
  exact ⟨parsed, text, spanned, printed, lexed, kept {}⟩

end RhoFrontend
