import RhoFrontend.Proofs.Grammar
import RhoFrontend.Proofs.Spelling

/-!
The trees that have a source text, and what the printer makes of them before it writes anything:
tokens that the grammar derives from the tree again, each with a spelling that is read as it.
-/

namespace RhoFrontend

open Grammar
open Token (mark word)

namespace Token

/-- What the token is printed as is read as the token. -/
def ReadsBack (token : Token) : Prop := token.Spelled token.spelling

theorem of_word_spelling (keyword : Keyword) :
    Lexeme.ofWord keyword.spelling.toList = word keyword := by
  cases keyword <;> decide

@[simp] theorem word_reads_back (keyword : Keyword) : (word keyword).ReadsBack := by
  have shape : ∃ first rest, keyword.spelling.toList = first :: rest ∧
      isNameStart first = true ∧ ∀ char ∈ rest, isNamePart char = true := by
    cases keyword <;>
      refine ⟨_, _, (List.cons_head_tail (by decide)).symm, by decide, ?_⟩ <;>
        simp [Keyword.spelling] <;> decide
  obtain ⟨first, rest, spelling, starts, parts⟩ := shape
  have spelled := Spelled.word starts parts
  rw [← spelling, of_word_spelling] at spelled
  exact spelled

@[simp] theorem mark_reads_back (punctuation : Punctuation) : (mark punctuation).ReadsBack := by
  cases punctuation with
  | leftArrow => exact .arrow
  | _ => exact .single rfl

/-- Both ends of the 64-bit range have a spelling of their own, and the lowest number is read with
its sign, because its magnitude alone would not fit. -/
theorem integer_reads_back (value : Int64) : (Token.integer value).ReadsBack := by
  have digit : ∀ char ∈ Nat.toDigits 10 value.toInt.natAbs, char.isDigit = true :=
    fun char member => Nat.isDigit_of_mem_toDigits (by decide) (by decide) member
  have fits := Integer.of_int_to_int value
  rw [ReadsBack, spelling, Integer.spelling, Integer.digitsOfValue]
  split
  · next negative =>
      have signed : Integer.valueOfDigits true (Nat.toDigits 10 value.toInt.natAbs) =
          value.toInt := by
        simp only [Integer.valueOfDigits, Nat.ofDigitChars_ten_toDigits, if_true]
        omega
      rw [← signed] at fits
      exact .integer .minus Nat.toDigits_ne_nil digit fits
  · next positive =>
      have signed : Integer.valueOfDigits false (Nat.toDigits 10 value.toInt.natAbs) =
          value.toInt := by
        simp only [Integer.valueOfDigits, Nat.ofDigitChars_ten_toDigits, Bool.false_eq_true,
          if_false]
        omega
      rw [← signed] at fits
      exact .integer .absent Nat.toDigits_ne_nil digit fits

theorem string_reads_back {content : String} (unquoted : '"' ∉ content.toList) :
    (Token.string content).ReadsBack := by
  have spelled := Spelled.string unquoted
  rwa [String.ofList_toList] at spelled

theorem uri_reads_back {content : String} (unquoted : '\x60' ∉ content.toList) :
    (Token.uri content).ReadsBack := by
  have spelled := Spelled.uri unquoted
  rwa [String.ofList_toList] at spelled

theorem identifier_reads_back {name : String} (clean : Unprintable.ofName name = []) :
    (Token.identifier name).ReadsBack := by
  unfold Unprintable.ofName at clean
  split at clean
  · next read lexemes =>
      have spelled := Piece.lexemes_eq_token_iff.1 lexemes
      have same := text_of_spelled_identifier spelled
      rw [String.toList_inj] at same
      rwa [← same] at spelled
  · cases clean
  · cases clean

def AllReadBack (tokens : List Token) : Prop := ∀ token ∈ tokens, token.ReadsBack

@[simp] theorem all_read_back_nil : AllReadBack [] := fun _ none => by cases none

@[simp] theorem all_read_back_cons (token : Token) (rest : List Token) :
    AllReadBack (token :: rest) ↔ token.ReadsBack ∧ AllReadBack rest :=
  List.forall_mem_cons

@[simp] theorem all_read_back_append (left right : List Token) :
    AllReadBack (left ++ right) ↔ AllReadBack left ∧ AllReadBack right :=
  List.forall_mem_append

end Token

namespace ProcessTree

/-- The trees that the grammar has a place for. Data that ends up in a token has to be such that
the token is read back. -/
inductive Printable : ProcessTree → Prop
  | nil : Printable .nil
  | ground {value : Ground} (readsBack : (Token.ofGround value).ReadsBack) :
      Printable (.ground value)
  | send {channel message : ProcessTree} (name : Printable channel) (content : Printable message) :
      Printable (.send channel message)
  | receive {actions : List Action} {body : ProcessTree} (nonempty : actions ≠ [])
      (names : ∀ action ∈ actions, (Token.identifier action.pattern.name).ReadsBack)
      (channels : ∀ action ∈ actions, Printable action.channel) (inner : Printable body) :
      Printable (.receive actions body)
  | par {operands : List ProcessTree} (several : 2 ≤ operands.length)
      (flat : ∀ operand ∈ operands, operand.isPar = false)
      (all : ∀ operand ∈ operands, Printable operand) : Printable (.par operands)
  | restrict {declarations : List Declaration} {body : ProcessTree} (nonempty : declarations ≠ [])
      (readBack : ∀ declaration ∈ declarations, Token.AllReadBack (Token.ofDeclaration declaration))
      (inner : Printable body) : Printable (.restrict declarations body)
  | bundle {body : ProcessTree} (inner : Printable body) : Printable (.bundle body)

end ProcessTree

private theorem ground_reads_back {value : Ground} (clean : Unprintable.ofGround value = []) :
    (Token.ofGround value).ReadsBack := by
  cases value with
  | int value => exact Token.integer_reads_back value
  | string content =>
      apply Token.string_reads_back
      intro quoted
      simp [Unprintable.ofGround, quoted] at clean
  | bool value => exact Token.word_reads_back _

private theorem declaration_reads_back {declaration : Declaration}
    (clean : Unprintable.ofDeclaration declaration = []) :
    Token.AllReadBack (Token.ofDeclaration declaration) := by
  obtain ⟨name, uri⟩ := declaration
  obtain ⟨cleanName, cleanUri⟩ := List.append_eq_nil_iff.1 clean
  have identifier := Token.identifier_reads_back cleanName
  cases uri with
  | none => simpa [Token.ofDeclaration] using identifier
  | some resource =>
      have located : (Token.uri resource).ReadsBack := by
        apply Token.uri_reads_back
        intro quoted
        simp [Unprintable.ofUri, quoted] at cleanUri
      simp [Token.ofDeclaration, identifier, located]

mutual

theorem ProcessTree.printable_of_clean :
    ∀ process : ProcessTree, process.unprintable = [] → process.Printable
  | .nil, _ => .nil
  | .ground _, clean => .ground (ground_reads_back clean)
  | .send channel message, clean => by
      obtain ⟨cleanChannel, cleanMessage⟩ := List.append_eq_nil_iff.1 clean
      apply ProcessTree.Printable.send
      · exact channel.printable_of_clean cleanChannel
      · exact message.printable_of_clean cleanMessage
  | .receive actions body, clean => by
      simp only [ProcessTree.unprintable, List.append_eq_nil_iff, ite_eq_right_iff,
        List.isEmpty_iff] at clean
      obtain ⟨nonempty, cleanActions, cleanBody⟩ := clean
      have bindings := Action.printable_of_clean actions cleanActions
      apply ProcessTree.Printable.receive
      · intro empty
        cases nonempty empty
      · exact fun action member => (bindings action member).1
      · exact fun action member => (bindings action member).2
      · exact body.printable_of_clean cleanBody
  | .par operands, clean => by
      simp only [ProcessTree.unprintable, List.append_eq_nil_iff, ite_eq_right_iff] at clean
      obtain ⟨several, cleanOperands⟩ := clean
      have all := ProcessTree.list_printable_of_clean operands cleanOperands
      apply ProcessTree.Printable.par
      · apply Nat.le_of_not_lt
        intro few
        cases several few
      · exact fun operand member => (all operand member).1
      · exact fun operand member => (all operand member).2
  | .restrict declarations body, clean => by
      simp only [ProcessTree.unprintable, List.append_eq_nil_iff, ite_eq_right_iff,
        List.isEmpty_iff, List.flatMap_eq_nil_iff] at clean
      obtain ⟨nonempty, cleanDeclarations, cleanBody⟩ := clean
      apply ProcessTree.Printable.restrict
      · intro empty
        cases nonempty empty
      · intro declaration member
        exact declaration_reads_back (cleanDeclarations declaration member)
      · exact body.printable_of_clean cleanBody
  | .bundle body, clean => .bundle (body.printable_of_clean clean)

theorem Action.printable_of_clean :
    ∀ actions : List Action, Action.listUnprintable actions = [] → ∀ action ∈ actions,
      (Token.identifier action.pattern.name).ReadsBack ∧ action.channel.Printable
  | [], _ => fun _ member => by cases member
  | ⟨pattern, channel⟩ :: rest, clean => by
      simp only [Action.listUnprintable, Pattern.boundNames, List.flatMap_singleton,
        List.append_eq_nil_iff] at clean
      obtain ⟨cleanName, cleanChannel, cleanRest⟩ := clean
      exact List.forall_mem_cons.2 ⟨⟨Token.identifier_reads_back cleanName,
        channel.printable_of_clean cleanChannel⟩, Action.printable_of_clean rest cleanRest⟩

theorem ProcessTree.list_printable_of_clean :
    ∀ operands : List ProcessTree, ProcessTree.listUnprintable operands = [] →
      ∀ operand ∈ operands, operand.isPar = false ∧ operand.Printable
  | [], _ => fun _ member => by cases member
  | operand :: rest, clean => by
      simp only [ProcessTree.listUnprintable, List.append_eq_nil_iff, ite_eq_right_iff] at clean
      obtain ⟨flat, cleanOperand, cleanRest⟩ := clean
      have single : operand.isPar = false := Bool.eq_false_iff.2 fun nested => by cases flat nested
      exact List.forall_mem_cons.2 ⟨⟨single, operand.printable_of_clean cleanOperand⟩,
        ProcessTree.list_printable_of_clean rest cleanRest⟩

end

/-! The three lists of the grammar are printed alike, with a separator between two items. -/

namespace Token

def joined (separator : Token) : List (List Token) → List Token
  | [] => []
  | [last] => last
  | first :: second :: rest => first ++ separator :: joined separator (second :: rest)

theorem joined_read_back {Item : Type} {separator : Token} {tokens : Item → List Token}
    {items : List Item} (separatorRead : separator.ReadsBack)
    (all : ∀ item ∈ items, AllReadBack (tokens item)) :
    AllReadBack (joined separator (items.map tokens)) := by
  induction items with
  | nil => exact all_read_back_nil
  | cons first rest induction =>
      obtain ⟨head, others⟩ := List.forall_mem_cons.1 all
      have tail := induction others
      cases rest with
      | nil => exact head
      | cons second rest =>
          rw [List.map_cons, List.map_cons, joined, all_read_back_append, all_read_back_cons]
          exact ⟨head, separatorRead, tail⟩

theorem of_declarations_eq_joined (declarations : List Declaration) :
    ofDeclarations declarations = joined (mark .comma) (declarations.map ofDeclaration) := by
  fun_induction ofDeclarations declarations with
  | case1 => rfl
  | case2 last => rfl
  | case3 first rest nonempty induction =>
      obtain ⟨second, others, rfl⟩ := List.exists_cons_of_ne_nil nonempty
      rw [induction]
      rfl

theorem derives_joined {Item : Type} {item : Item → Phrase} {list : List Item → Phrase}
    {separator : Token} {tokens : Item → List Token}
    (last : ∀ {only : Item} {text : List Token}, Derives (item only) text →
      Derives (list [only]) text)
    (more : ∀ {first : Item} {others : List Item} {text rest : List Token},
      Derives (item first) text → Derives (list others) rest →
        Derives (list (first :: others)) (text ++ separator :: rest))
    {items : List Item} (nonempty : items ≠ [])
    (all : ∀ each ∈ items, Derives (item each) (tokens each)) :
    Derives (list items) (joined separator (items.map tokens)) := by
  induction items with
  | nil => exact absurd rfl nonempty
  | cons first rest induction =>
      have head := all first List.mem_cons_self
      cases rest with
      | nil => exact last head
      | cons second rest =>
          have tail := induction (List.cons_ne_nil second rest)
            (fun each member => all each (List.mem_cons_of_mem first member))
          exact more head tail

end Token

theorem Action.tokens_eq (action : Action) : action.tokens =
    .identifier action.pattern.name :: mark .leftArrow :: mark .atSign ::
      action.channel.tokens := by
  cases action
  rfl

theorem Action.list_tokens_eq_joined (actions : List Action) :
    Action.listTokens actions = Token.joined (mark .semicolon) (actions.map Action.tokens) := by
  induction actions with
  | nil => rfl
  | cons first rest induction =>
      cases rest with
      | nil => rfl
      | cons second rest =>
          rw [Action.listTokens, induction]
          · rfl
          · exact List.cons_ne_nil second rest

namespace ProcessTree

theorem list_tokens_eq_joined (operands : List ProcessTree) :
    listTokens operands = Token.joined (mark .pipe) (operands.map tokens) := by
  induction operands with
  | nil => rfl
  | cons first rest induction =>
      cases rest with
      | nil => rfl
      | cons second rest =>
          rw [listTokens, induction]
          · rfl
          · exact List.cons_ne_nil second rest

theorem derives_term_of_process {tree : ProcessTree} {tokens : List Token}
    (derived : Derives (.process tree) tokens) (single : tree.isPar = false) :
    Derives (.term tree) tokens := by
  cases derived with
  | single only => exact only
  | parallel several all => cases single

private theorem derives_ground (value : Ground) :
    Derives (.ground value) [Token.ofGround value] := by
  rcases value with value | content | _ | _
  · exact .integer value
  · exact .string content
  · exact .falseValue
  · exact .trueValue

private theorem derives_action {action : Action}
    (channel : Derives (.process action.channel) action.channel.tokens) :
    Derives (.action action) action.tokens := by
  cases action
  exact .action (.name channel)

theorem derives_declaration (declaration : Declaration) :
    Derives (.declaration .new declaration) (Token.ofDeclaration declaration) := by
  obtain ⟨name, uri⟩ := declaration
  cases uri with
  | none => exact .plain name
  | some resource => exact .located .new name resource

/-- The grammar derives the printed tokens from the tree. A chain in a channel needs no brackets,
because the bar binds there as well. -/
theorem derives_tokens {tree : ProcessTree} (printable : tree.Printable) :
    Derives (.process tree) tree.tokens := by
  induction printable with
  | nil => exact .single .nil
  | @ground value readsBack => exact .single (.literal (derives_ground value))
  | send name content channelDerived contentDerived =>
      exact .single (.send (.name channelDerived) contentDerived)
  | @receive actions body nonempty names channels inner channelsDerived innerDerived =>
      have bindings : Derives (.actions actions) (Action.listTokens actions) := by
        rw [Action.list_tokens_eq_joined]
        apply Token.derives_joined .lastAction .moreActions nonempty
        exact fun action member => derives_action (channelsDerived action member)
      exact .single (.receive bindings (.block innerDerived))
  | @par operands several flat all allDerived =>
      have nonempty := List.ne_nil_of_length_pos (Nat.lt_of_lt_of_le Nat.zero_lt_two several)
      rw [tokens, list_tokens_eq_joined]
      apply Derives.parallel several
      apply Token.derives_joined .lastTerm .moreTerms nonempty
      intro operand member
      exact derives_term_of_process (allDerived operand member) (flat operand member)
  | @restrict declarations body nonempty readBack inner innerDerived =>
      have names : Derives (.declarations .new declarations)
          (Token.ofDeclarations declarations) := by
        rw [Token.of_declarations_eq_joined]
        apply Token.derives_joined .lastDeclaration .moreDeclarations nonempty
        exact fun declaration _ => derives_declaration declaration
      exact .single (.restrict names (.block innerDerived))
  | bundle inner innerDerived => exact .single (.bundle (.block innerDerived))

theorem tokens_read_back {tree : ProcessTree} (printable : tree.Printable) :
    Token.AllReadBack tree.tokens := by
  induction printable with
  | nil => simp [tokens]
  | ground readsBack => simpa [tokens] using readsBack
  | send name content channelRead contentRead => simp [tokens, channelRead, contentRead]
  | @receive actions body nonempty names channels inner channelsRead innerRead =>
      have bindings : Token.AllReadBack (Action.listTokens actions) := by
        rw [Action.list_tokens_eq_joined]
        apply Token.joined_read_back (Token.mark_reads_back .semicolon)
        intro action member
        rw [Action.tokens_eq]
        simp [names action member, channelsRead action member]
      simp [tokens, bindings, innerRead]
  | par several flat all allRead =>
      rw [tokens, list_tokens_eq_joined]
      exact Token.joined_read_back (Token.mark_reads_back .pipe) allRead
  | @restrict declarations body nonempty readBack inner innerRead =>
      have names : Token.AllReadBack (Token.ofDeclarations declarations) := by
        rw [Token.of_declarations_eq_joined]
        exact Token.joined_read_back (Token.mark_reads_back .comma) readBack
      simp [tokens, names, innerRead]
  | bundle inner innerRead => simp [tokens, innerRead]

end ProcessTree

end RhoFrontend
