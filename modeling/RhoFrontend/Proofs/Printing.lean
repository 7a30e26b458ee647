import RhoFrontend.Proofs.Parsing
import RhoFrontend.Proofs.Printing.Tokens

/-!
Printed text read back. The printer leaves out most of the spaces, so two tokens have to stay apart
without one wherever it does. Then the reader finds the printed tokens again, none of them merged or
cut, and from them the tree.
-/

namespace RhoFrontend

open Grammar
open Token (mark word)

namespace SourceText

/-- There is a space between the two, or the second starts with a character that the first would
not take. -/
def Apart (left right : Token) : Prop :=
  (spaceAfter left || spaceBefore right) = true ∨ left.EndsBefore right.spelling

/-- Tokens that can have any neighbour on either side. -/
def Unattached (token : Token) : Prop := ∀ other, Apart other token ∧ Apart token other

theorem mark_unattached (punctuation : Punctuation) : Unattached (mark punctuation) := by
  intro other
  have foreign : ∀ char ∈ (mark punctuation).spelling.head?,
      isNamePart char = false ∧ char.isDigit = false := by
    cases punctuation <;> simp [mark, Token.spelling, Punctuation.spelling] <;> decide
  constructor
  · refine .inr fun char first => ?_
    obtain ⟨notName, notDigit⟩ := foreign char first
    cases other with
    | keyword | identifier => exact notName
    | integer => exact notDigit
    | string | uri | punctuation => rfl
  · exact .inr fun _ _ => rfl

@[simp] theorem apart_mark_right (left : Token) (punctuation : Punctuation) :
    Apart left (mark punctuation) := (mark_unattached punctuation left).1

@[simp] theorem apart_mark_left (punctuation : Punctuation) (right : Token) :
    Apart (mark punctuation) right := (mark_unattached punctuation right).2

theorem within_unattached : Unattached (word .within) :=
  fun _ => ⟨.inl (Bool.or_true _), .inl (Bool.true_or _)⟩

theorem chain_cons_iff {token : Token} (after : ∀ other, Apart token other) (rest : List Token) :
    (token :: rest).IsChain Apart ↔ rest.IsChain Apart := by
  rw [List.isChain_cons]
  exact and_iff_right fun other _ => after other

theorem chain_around_iff {token : Token} (unattached : Unattached token)
    (left right : List Token) : (left ++ token :: right).IsChain Apart ↔
      left.IsChain Apart ∧ right.IsChain Apart := by
  rw [List.isChain_append, chain_cons_iff fun other => (unattached other).2]
  have boundary : ∀ last ∈ left.getLast?, ∀ next ∈ (token :: right).head?, Apart last next := by
    rintro last - _ ⟨⟩
    exact (unattached last).1
  exact ⟨fun ⟨before, after, _⟩ => ⟨before, after⟩,
    fun ⟨before, after⟩ => ⟨before, after, boundary⟩⟩

@[simp] theorem chain_mark_cons (punctuation : Punctuation) (rest : List Token) :
    (mark punctuation :: rest).IsChain Apart ↔ rest.IsChain Apart :=
  chain_cons_iff (apart_mark_left punctuation) rest

@[simp] theorem chain_around_mark (punctuation : Punctuation) (left right : List Token) :
    (left ++ mark punctuation :: right).IsChain Apart ↔ left.IsChain Apart ∧ right.IsChain Apart :=
  chain_around_iff (mark_unattached punctuation) left right

/-- A piece for every token, and one for every space. -/
def pieces : List Token → List Piece
  | [] => []
  | [last] => [⟨.token last, last.spelling⟩]
  | left :: right :: rest =>
      ⟨.token left, left.spelling⟩ ::
        ((if spaceAfter left || spaceBefore right then [⟨.trivia .whitespace, [' ']⟩] else []) ++
          pieces (right :: rest))

theorem head_of_tokens {first : Token} (readsBack : first.ReadsBack) (rest : List Token) :
    (ofTokens (first :: rest)).head? = first.spelling.head? ∧
      ∀ char ∈ first.spelling.head?, isBlank char = false := by
  have ends : first.EndsBefore [] := fun _ none => by cases none
  obtain ⟨char, body, spelling, notBlank, -⟩ := Lexeme.exists_next_of_spelled readsBack ends
  rw [spelling]
  constructor
  · cases rest with
    | nil => rw [ofTokens, spelling]
    | cons second rest => rw [ofTokens, spelling]; rfl
  · rintro _ ⟨⟩
    exact notBlank

theorem of_text_of_tokens {tokens : List Token} (readBack : Token.AllReadBack tokens)
    (apart : tokens.IsChain Apart) : Piece.ofText (ofTokens tokens) = pieces tokens := by
  fun_induction ofTokens tokens with
  | case1 => rw [Piece.ofText, pieces]
  | case2 last =>
      have ends : last.EndsBefore [] := fun _ none => by cases none
      have whole := Piece.of_text_of_spelled (readBack last List.mem_cons_self) ends
      rw [List.append_nil, Piece.ofText] at whole
      exact whole
  | case3 left right rest induction =>
      obtain ⟨leftRead, othersRead⟩ := (Token.all_read_back_cons _ _).1 readBack
      obtain ⟨neighbours, othersApart⟩ := List.isChain_cons_cons.1 apart
      obtain ⟨sameHead, notBlank⟩ := head_of_tokens (othersRead right List.mem_cons_self) rest
      have others := induction othersRead othersApart
      rw [pieces]
      split
      · next spaced =>
          have ends : left.EndsBefore (' ' :: ofTokens (right :: rest)) := by
            rintro _ ⟨⟩
            cases left <;> rfl
          rw [List.append_assoc, List.singleton_append, List.singleton_append,
            Piece.of_text_of_spelled leftRead ends, Piece.of_text_space, others]
          rwa [sameHead]
      · next close =>
          have ends : left.EndsBefore (ofTokens (right :: rest)) := by
            rw [Token.EndsBefore, sameHead]
            exact neighbours.resolve_left close
          rw [List.append_nil, Piece.of_text_of_spelled leftRead ends, others]
          rfl

end SourceText

namespace ProcessTree

open SourceText

private theorem joined_apart {Item : Type} {punctuation : Punctuation} {tokens : Item → List Token}
    {items : List Item} (all : ∀ item ∈ items, (tokens item).IsChain Apart) :
    (Token.joined (mark punctuation) (items.map tokens)).IsChain Apart := by
  induction items with
  | nil => exact .nil
  | cons first rest induction =>
      obtain ⟨head, others⟩ := List.forall_mem_cons.1 all
      have tail := induction others
      cases rest with
      | nil => exact head
      | cons second rest =>
          rw [List.map_cons, List.map_cons, Token.joined, chain_around_mark]
          exact ⟨head, tail⟩

private theorem declaration_apart (declaration : Declaration) :
    (Token.ofDeclaration declaration).IsChain Apart := by
  obtain ⟨name, uri⟩ := declaration
  cases uri with
  | none => exact .singleton _
  | some resource =>
      simp [Token.ofDeclaration]

/-- Of two neighbours in print, one is punctuation or a keyword that has a space at that side. -/
theorem tokens_apart {tree : ProcessTree} (printable : tree.Printable) :
    tree.tokens.IsChain Apart := by
  induction printable with
  | nil => exact .singleton _
  | ground readsBack => exact .singleton _
  | send name content channelApart contentApart => simp [tokens, channelApart, contentApart]
  | @receive actions body nonempty names channels inner channelsApart innerApart =>
      have bindings : (Action.listTokens actions).IsChain Apart := by
        rw [Action.list_tokens_eq_joined]
        apply joined_apart
        intro action member
        rw [Action.tokens_eq]
        simp [channelsApart action member]
      simp [tokens, bindings, innerApart]
  | par several flat all allApart =>
      rw [tokens, list_tokens_eq_joined]
      exact joined_apart allApart
  | @restrict declarations body nonempty readBack inner innerApart =>
      have names : (Token.ofDeclarations declarations).IsChain Apart := by
        rw [Token.of_declarations_eq_joined]
        exact joined_apart fun declaration _ => declaration_apart declaration
      have keyword : ∀ other, Apart (word .new) other := fun _ => .inl (Bool.true_or _)
      rw [tokens, chain_cons_iff keyword, chain_around_iff within_unattached]
      simp [names, innerApart]
  | bundle inner innerApart =>
      simp [tokens, innerApart]

end ProcessTree

namespace Piece

def token? (piece : Piece) : Option Token :=
  match piece.lexeme with
  | .token token => some token
  | _ => none

/-- The piece is a token or trivia that may stand anywhere, wherever it comes from. -/
def Passes (options : Options) (piece : Piece) : Prop :=
  ∀ span, piece.significant options span = .ok (piece.token?.map (⟨·, span⟩))

theorem passes_of_token (options : Options) (token : Token) (text : List Char) :
    Passes options ⟨.token token, text⟩ := fun _ => rfl

theorem passes_of_whitespace (options : Options) (text : List Char) :
    Passes options ⟨.trivia .whitespace, text⟩ := by
  intro span
  have complete : lacksNewline ⟨.trivia .whitespace, text⟩ = false := rfl
  simp [significant, complete, token?]

theorem exists_spanned_of_passes {options : Options} {pieces : List Piece}
    (passes : ∀ piece ∈ pieces, piece.Passes options) (offset : Nat) :
    ∃ spanned, SpannedToken.ofPieces options (withSpans offset pieces) = .ok spanned ∧
      spanned.map SpannedToken.token = pieces.filterMap token? := by
  induction pieces generalizing offset with
  | nil => exact ⟨[], rfl, rfl⟩
  | cons first rest induction =>
      obtain ⟨head, others⟩ := List.forall_mem_cons.1 passes
      obtain ⟨spanned, read, tokens⟩ := induction others (offset + byteLength first.text)
      have passed := head ⟨offset, offset + byteLength first.text⟩
      cases found : first.token? with
      | none =>
          rw [found] at passed
          refine ⟨spanned, ?_, ?_⟩
          · simp [withSpans, SpannedToken.ofPieces, passed, read]
          · rw [List.filterMap_cons_none found, tokens]
      | some token =>
          rw [found] at passed
          refine ⟨⟨token, ⟨offset, offset + byteLength first.text⟩⟩ :: spanned, ?_, ?_⟩
          · simp [withSpans, SpannedToken.ofPieces, passed, read, Except.map]
          · rw [List.filterMap_cons_some found, List.map_cons, tokens]

end Piece

namespace SourceText

theorem pieces_pass (options : Options) (tokens : List Token) :
    ∀ piece ∈ pieces tokens, piece.Passes options := by
  fun_induction pieces tokens with
  | case1 => exact fun _ none => by cases none
  | case2 last => exact List.forall_mem_singleton.2 (Piece.passes_of_token options last _)
  | case3 left right rest induction =>
      refine List.forall_mem_cons.2 ⟨Piece.passes_of_token options left _, ?_⟩
      refine List.forall_mem_append.2 ⟨?_, induction⟩
      split
      · exact List.forall_mem_singleton.2 (Piece.passes_of_whitespace options [' '])
      · exact fun _ none => by cases none

theorem tokens_of_pieces (tokens : List Token) :
    (pieces tokens).filterMap Piece.token? = tokens := by
  fun_induction pieces tokens with
  | case1 => rfl
  | case2 last => rfl
  | case3 left right rest induction =>
      have first : Piece.token? ⟨.token left, left.spelling⟩ = some left := rfl
      rw [List.filterMap_cons_some first, List.filterMap_append, induction]
      split <;> rfl

theorem exists_spanned_of_tokens (options : Options) {tokens : List Token}
    (readBack : Token.AllReadBack tokens) (apart : tokens.IsChain Apart) :
    ∃ spanned, SpannedToken.ofSource options (ofTokens tokens) = .ok spanned ∧
      spanned.map SpannedToken.token = tokens := by
  rw [SpannedToken.ofSource, of_text_of_tokens readBack apart]
  obtain ⟨spanned, read, same⟩ := Piece.exists_spanned_of_passes (pieces_pass options tokens) 0
  rw [tokens_of_pieces] at same
  exact ⟨spanned, read, same⟩

end SourceText

theorem printable_of_to_source {process : ProcessTree} {text : String}
    (printed : process.toSource = .ok text) :
    process.Printable ∧ text.toList = SourceText.ofTokens process.tokens := by
  unfold ProcessTree.toSource at printed
  split at printed
  · next clean =>
      cases printed
      exact ⟨process.printable_of_clean clean, String.toList_ofList⟩
  · cases printed

/-- Printing and then parsing is the identity, whatever the options, and nothing else is read from
the printed text. -/
theorem printed_source_parses_back (process : ProcessTree) (text : String) (options : Options)
    (printed : process.toSource = .ok text) :
    ProcessTree.derivations options text = .ok [process] ∧
      ProcessTree.parse options text = .ok process := by
  obtain ⟨printable, spelled⟩ := printable_of_to_source printed
  obtain ⟨spanned, lexed, same⟩ := SourceText.exists_spanned_of_tokens options
    (ProcessTree.tokens_read_back printable) (ProcessTree.tokens_apart printable)
  rw [← spelled] at lexed
  have derived : ProcessTree.derivations options text = .ok [process] := by
    rw [derivations_ok_iff lexed]
    refine ⟨process, rfl, ?_⟩
    rw [same]
    exact ProcessTree.derives_tokens printable
  exact ⟨derived, parse_ok_iff_derivations.2 derived⟩

/-- A chain stays in its channel without brackets, the lowest number keeps its sign, and what looks
like a comment stays text inside a literal. -/
theorem printed_source_parses_back_chain_in_channel :
    ProcessTree.toSource (.send (.par [.nil, .ground (.int (-9223372036854775808))])
        (.restrict [⟨"x", some "//\n"⟩] (.ground (.string "/*\n")))) =
      .ok "@Nil | -9223372036854775808!(new x(`//\n`) in \x7b \"/*\n\" \x7d)" ∧
    ProcessTree.derivations ⟨true⟩
        "@Nil | -9223372036854775808!(new x(`//\n`) in \x7b \"/*\n\" \x7d)" =
      .ok [.send (.par [.nil, .ground (.int (-9223372036854775808))])
        (.restrict [⟨"x", some "//\n"⟩] (.ground (.string "/*\n")))] := by
  have printed : ProcessTree.toSource (.send (.par [.nil, .ground (.int (-9223372036854775808))])
        (.restrict [⟨"x", some "//\n"⟩] (.ground (.string "/*\n")))) =
      .ok "@Nil | -9223372036854775808!(new x(`//\n`) in \x7b \"/*\n\" \x7d)" := by cbv
  exact ⟨printed, (printed_source_parses_back _ _ ⟨true⟩ printed).1⟩

end RhoFrontend
