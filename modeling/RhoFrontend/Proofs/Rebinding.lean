import RhoFrontend.Proofs.Restriction
import RhoFrontend.Proofs.SourceFaults
import RhoFrontend.Proofs.SourceTiling

/-!
Sources with other words for their restrictions. Any choice of the places where `new` or `lookup`
stands can be given to one of these words: the source is cut into the same tokens but for these.
With `new` it is read as the same tree, and with `lookup` if every name declared there has a uri.
-/

namespace RhoFrontend

open Grammar
open Reading (Binder)
open Token (word)

namespace Token

/-- The token, or the given word in the place of either word for a restriction. -/
def rebound (target : Binder) : Token → Token
  | .keyword .new | .keyword .lookup => binderWord target
  | token => token

theorem reprinted_rebound (target : Binder) (token : Token) :
    (token.rebound target).reprinted = token.reprinted := by
  unfold rebound
  split
  · exact reprinted_binder target
  · exact reprinted_binder target
  · rfl

theorem binder_reads_back (binder : Binder) : (binderWord binder).ReadsBack := by
  cases binder with
  | new => exact word_reads_back .new
  | lookup => exact word_reads_back .lookup

theorem takes_of_binder (binder : Binder) : (binderWord binder).takes = isNamePart := by
  cases binder <;> rfl

theorem text_of_spelled_binder {binder : Binder} {text : List Char}
    (spelled : (binderWord binder).Spelled text) : text = (binderWord binder).spelling := by
  rw [← String.toList_ofList (l := text)] at spelled ⊢
  cases binder <;> rw [← spelled_keyword_iff.1 spelled] <;> rfl

/-- Both words begin with a letter, so what ends before the one ends before the other. -/
theorem ends_before_binder {token : Token} {binder : Binder} {rest : List Char}
    (ends : token.EndsBefore ((binderWord binder).spelling ++ rest)) (target : Binder)
    (other : List Char) : token.EndsBefore ((binderWord target).spelling ++ other) := by
  cases token with
  | keyword | identifier =>
      cases binder with
      | new => cases ends 'n' rfl
      | lookup => cases ends 'l' rfl
  | integer => cases target <;> rintro _ ⟨⟩ <;> rfl
  | string | uri | punctuation => exact fun _ _ => rfl

end Token

namespace SpannedToken

/-- The token that comes into the place of this one. -/
def rebound (target : Binder) (chosen : Span → Bool) (each : SpannedToken) : Token :=
  if chosen each.span then each.token.rebound target else each.token

theorem reprinted_rebound (target : Binder) (chosen : Span → Bool) (each : SpannedToken) :
    (each.rebound target chosen).reprinted = each.token.reprinted := by
  unfold rebound
  split
  · exact each.token.reprinted_rebound target
  · rfl

/-- Where `lookup` stands now it stood before, or it was given to one of the chosen places. -/
theorem lookup_before {target : Binder} {chosen : Span → Bool} {each : SpannedToken}
    (isLookup : each.rebound target chosen = word .lookup) :
    each.token = word .lookup ∨
      target = .lookup ∧ each.token = word .new ∧ chosen each.span = true := by
  unfold rebound at isLookup
  split at isLookup
  · next isChosen =>
      unfold Token.rebound at isLookup
      split at isLookup
      · next isNew =>
          cases target with
          | new => cases isLookup
          | lookup => exact .inr ⟨rfl, isNew, isChosen⟩
      · next wasLookup => exact .inl wasLookup
      · exact .inl isLookup
  · exact .inl isLookup

end SpannedToken

namespace Piece

/-- The text of a piece, or the given word if the piece is one of the two words. -/
def rebound (target : Binder) (piece : Piece) : List Char :=
  match piece.lexeme with
  | .token (.keyword .new) | .token (.keyword .lookup) => (binderWord target).spelling
  | _ => piece.text

/-- The text that comes into the place of this piece. -/
def rewritten (target : Binder) (chosen : Span → Bool) (each : Piece × Span) : List Char :=
  if chosen each.2 then each.1.rebound target else each.1.text

end Piece

/-- The source with the given word in all the places, of the chosen ones, where one of the two words
for a restriction stands. -/
def rebind (target : Binder) (chosen : Span → Bool) (source : String) : String :=
  String.ofList ((Piece.ofSource source.toList).flatMap (Piece.rewritten target chosen))

/-! The new text is read piece by piece next to the old one. -/

section Rewritten

variable (target : Binder) (chosen : Span → Bool)

/-- A piece is kept, or it is one of the two words and has become the given one. -/
theorem Piece.kept_or_rewritten (piece : Piece) (span : Span) :
    (rewritten target chosen (piece, span) = piece.text ∧ ∀ token, piece.lexeme = .token token →
      SpannedToken.rebound target chosen ⟨token, span⟩ = token) ∨
    ∃ binder, piece.lexeme = .token (binderWord binder) ∧
      rewritten target chosen (piece, span) = (binderWord target).spelling ∧
      SpannedToken.rebound target chosen ⟨binderWord binder, span⟩ = binderWord target := by
  unfold rewritten SpannedToken.rebound
  by_cases isChosen : chosen span = true
  · simp only [isChosen, if_true]
    unfold rebound
    split
    · next isNew => exact .inr ⟨.new, isNew, rfl, rfl⟩
    · next isLookup => exact .inr ⟨.lookup, isLookup, rfl, rfl⟩
    · next notNew notLookup =>
        refine .inl ⟨rfl, ?_⟩
        intro token isToken
        unfold Token.rebound
        split
        · exact absurd isToken notNew
        · exact absurd isToken notLookup
        · rfl
  · simp only [isChosen]
    exact .inl ⟨rfl, fun _ _ => rfl⟩

theorem Piece.rewritten_of_trivia {piece : Piece} {kind : Trivia}
    (isTrivia : piece.lexeme = .trivia kind) (span : Span) :
    rewritten target chosen (piece, span) = piece.text := by
  rcases piece.kept_or_rewritten target chosen span with ⟨kept, -⟩ | ⟨binder, isToken, -⟩
  · exact kept
  · rw [isTrivia] at isToken
    cases isToken

theorem Piece.spelled_rewritten {piece : Piece} {token : Token}
    (isToken : piece.lexeme = .token token) (spelled : token.Spelled piece.text) (span : Span) :
    (SpannedToken.rebound target chosen ⟨token, span⟩).Spelled
        (rewritten target chosen (piece, span)) ∧
      (SpannedToken.rebound target chosen ⟨token, span⟩).takes = token.takes := by
  rcases piece.kept_or_rewritten target chosen span with
    ⟨text, same⟩ | ⟨binder, isBinder, text, same⟩
  · rw [text, same token isToken]
    exact ⟨spelled, rfl⟩
  · rw [isToken] at isBinder
    cases isBinder
    rw [text, same, Token.takes_of_binder, Token.takes_of_binder]
    exact ⟨Token.binder_reads_back target, rfl⟩

/-- What ended before the old text ends before the new one. -/
theorem Token.ends_before_rewritten {token : Token} {text : List Char} {pieces : List Piece}
    (cut : CutByLongestMatch text pieces) (ends : token.EndsBefore text) (offset : Nat) :
    token.EndsBefore ((Piece.withSpans offset pieces).flatMap (Piece.rewritten target chosen)) := by
  cases cut with
  | finished => exact ends
  | @piece piece rest pieces longest others =>
      rw [Piece.withSpans, List.flatMap_cons]
      rcases piece.kept_or_rewritten target chosen _ with
        ⟨kept, -⟩ | ⟨binder, isBinder, isTarget, -⟩
      · rw [kept]
        obtain ⟨first, body, shape⟩ := List.exists_cons_of_ne_nil longest.nonempty
        rw [shape] at ends ⊢
        exact ends
      · rw [isTarget]
        rw [Token.text_of_spelled_binder (longest.spelled isBinder).1] at ends
        exact Token.ends_before_binder ends target _

namespace SpannedToken

variable {options : Options}

/-- An open comment that passes at the end of a source passes wherever it begins. -/
theorem of_text_at_open {piece : Piece} {span : Span} {spanned : List SpannedToken}
    (longest : LongestMatch (piece.text ++ []) piece) (lacks : piece.lacksNewline = true)
    (read : ofPieces options [(piece, span)] = .ok spanned) (position : Nat) :
    spanned = [] ∧ ofTextAt options position (piece.text ++ []) = .ok [] := by
  have cut : Piece.ofText (piece.text ++ []) = [piece] :=
    (cut_by_longest_match_of_text _).unique (.piece longest .finished)
  have isComment := Piece.comment_of_lacks_newline lacks
  rw [ofTextAt, cut]
  simp only [ofPieces, Piece.significant, Piece.withSpans, isComment, lacks] at read ⊢
  obtain ⟨_ | _⟩ := options
  · cases read
    exact ⟨rfl, rfl⟩
  · cases read

theorem exists_rewritten {text : List Char} {pieces : List Piece}
    (cut : CutByLongestMatch text pieces) {offset : Nat} {spanned : List SpannedToken}
    (read : ofPieces options (Piece.withSpans offset pieces) = .ok spanned) (position : Nat) :
    ∃ moved, ofTextAt options position
        ((Piece.withSpans offset pieces).flatMap (Piece.rewritten target chosen)) = .ok moved ∧
      moved.map SpannedToken.token = spanned.map (rebound target chosen) := by
  induction cut generalizing offset spanned position with
  | finished =>
      cases read
      exact ⟨[], of_text_at_nil, rfl⟩
  | @piece piece rest pieces longest others induction =>
      rw [Piece.withSpans, List.flatMap_cons]
      generalize here : Span.mk offset (offset + byteLength piece.text) = span
      rcases of_pieces_cons read with
        ⟨token, later, isToken, readLater, rfl⟩ | ⟨⟨kind, isTrivia⟩, readLater⟩
      · obtain ⟨spelled, ends⟩ := longest.spelled isToken
        obtain ⟨written, takes⟩ := piece.spelled_rewritten target chosen isToken spelled span
        have endsNow := Token.ends_before_rewritten target chosen others ends
          (offset + byteLength piece.text)
        rw [Token.EndsBefore, ← takes] at endsNow
        obtain ⟨moved, readMoved, same⟩ := induction readLater
          (position + byteLength (Piece.rewritten target chosen (piece, span)))
        rw [of_text_at_spelled written endsNow, readMoved]
        refine ⟨_, rfl, ?_⟩
        rw [List.map_cons, List.map_cons, same, here]
      · rw [Piece.rewritten_of_trivia target chosen isTrivia]
        by_cases lacks : piece.lacksNewline = true
        · obtain ⟨-, rfl⟩ := longest.rest_of_lacks_newline lacks
          obtain rfl := others.unique .finished
          obtain ⟨rfl, readOpen⟩ := of_text_at_open longest lacks read position
          exact ⟨[], readOpen, rfl⟩
        · rw [of_text_at_trivia_text (longest.trivia_text isTrivia (Bool.eq_false_iff.2 lacks))]
          exact induction readLater _

/-- The new source is read as the tokens of the old one but for the chosen words. -/
theorem exists_rebound {source : String} {spanned : List SpannedToken}
    (lexed : ofSource options source.toList = .ok spanned) :
    ∃ moved, ofSource options (rebind target chosen source).toList = .ok moved ∧
      moved.map SpannedToken.token = spanned.map (rebound target chosen) := by
  rw [rebind, String.toList_ofList]
  exact exists_rewritten target chosen (cut_by_longest_match_of_text source.toList) lexed 0

end SpannedToken

end Rewritten

/-- Every name declared by a `new` at one of these places has a uri. -/
def NewLocated (chosen : Span → Bool) (spanned : List SpannedToken) : Prop :=
  ∀ before span after declarations, spanned = before ++ ⟨word .new, span⟩ :: after →
    chosen span = true → Declares (after.map SpannedToken.token) declarations →
      ∀ each ∈ declarations, each.uri.isSome = true

section Lexed

variable {options : Options} {source : String} {tree : ProcessTree} {spanned : List SpannedToken}

theorem same_print_of_rebound (target : Binder) (chosen : Span → Bool)
    (spanned : List SpannedToken) :
    (spanned.map (SpannedToken.rebound target chosen)).map Token.reprinted =
      (spanned.map SpannedToken.token).map Token.reprinted := by
  rw [List.map_map, List.map_map]
  apply List.map_congr_left
  exact fun each _ => each.reprinted_rebound target chosen

theorem lookups_located_iff {target : Binder} {chosen : Span → Bool} :
    LookupsLocated (spanned.map (SpannedToken.rebound target chosen)) ↔
      ∀ before each after declarations, spanned = before ++ each :: after →
        each.rebound target chosen = word .lookup →
          Declares (after.map SpannedToken.token) declarations →
            ∀ declared ∈ declarations, declared.uri.isSome = true := by
  constructor
  · rintro located before each after declarations rfl isLookup declares
    apply located _ (after.map (SpannedToken.rebound target chosen)) declarations
    · rw [List.map_append, List.map_cons, isLookup]
    · exact declares.of_same_print (same_print_of_rebound target chosen after)
  · intro located before after declarations split declares
    obtain ⟨first, behind, rfl, -, same⟩ := List.map_eq_append_iff.1 split
    obtain ⟨each, later, rfl, isLookup, rfl⟩ := List.map_eq_cons_iff.1 same
    apply located first each later declarations rfl isLookup
    exact declares.of_same_print (same_print_of_rebound target chosen later).symm

theorem located_of_lookup {before after : List SpannedToken} {each : SpannedToken}
    {declarations : List Declaration}
    (located : LookupsLocated ((before ++ each :: after).map SpannedToken.token))
    (isLookup : each.token = word .lookup)
    (declares : Declares (after.map SpannedToken.token) declarations) :
    ∀ declared ∈ declarations, declared.uri.isSome = true := by
  rw [List.map_append, List.map_cons, isLookup] at located
  exact located _ _ declarations rfl declares

theorem lookups_located_new {chosen : Span → Bool}
    (located : LookupsLocated (spanned.map SpannedToken.token)) :
    LookupsLocated (spanned.map (SpannedToken.rebound .new chosen)) := by
  rw [lookups_located_iff]
  rintro before each after declarations rfl isLookup declares
  rcases SpannedToken.lookup_before isLookup with wasLookup | ⟨isTarget, -⟩
  · exact located_of_lookup located wasLookup declares
  · cases isTarget

theorem lookups_located_lookup_iff {chosen : Span → Bool}
    (located : LookupsLocated (spanned.map SpannedToken.token)) :
    LookupsLocated (spanned.map (SpannedToken.rebound .lookup chosen)) ↔
      NewLocated chosen spanned := by
  rw [lookups_located_iff]
  constructor
  · intro all before span after declarations split isChosen declares
    apply all before _ after declarations split _ declares
    rw [SpannedToken.rebound, if_pos isChosen]
    rfl
  · rintro all before each after declarations rfl isLookup declares
    rcases SpannedToken.lookup_before isLookup with wasLookup | ⟨-, wasNew, isChosen⟩
    · exact located_of_lookup located wasLookup declares
    · apply all before each.span after declarations _ isChosen declares
      rw [← wasNew]

/-- A rebound source is read as the tree of the source or not at all. -/
theorem parse_rebind_iff (parsed : ProcessTree.parse options source = .ok tree)
    (lexed : SpannedToken.ofSource options source.toList = .ok spanned) (target : Binder)
    (chosen : Span → Bool) (other : ProcessTree) :
    ProcessTree.parse options (rebind target chosen source) = .ok other ↔
      other = tree ∧ LookupsLocated (spanned.map (SpannedToken.rebound target chosen)) := by
  obtain ⟨known, knownLexed, derived, readBack⟩ := exists_derivation_of_parse parsed
  obtain rfl : known = spanned := Except.ok.inj (knownLexed.symm.trans lexed)
  obtain ⟨moved, movedLexed, tokens⟩ := SpannedToken.exists_rebound target chosen lexed
  have samePrint := same_print_of_rebound target chosen known
  rw [parse_ok_iff_derivations, derivations_ok_iff movedLexed, tokens,
    ← derives_iff_of_same_print derived readBack samePrint]
  simp

end Lexed

/-- Wherever `lookup` stands in a program, it is `new` with the demand that its names have uris.
Each of the words declares a list of names there. With `new` in any of the places the program stays
the same, and with `lookup` it does exactly if all names that each replaced `new` declares have
uris. -/
theorem lookup_is_new_with_uris (options : Options) (source : String) (tree : ProcessTree)
    (parsed : ProcessTree.parse options source = .ok tree) :
    ∃ spanned, SpannedToken.ofSource options source.toList = .ok spanned ∧
      (∀ before binder span after, spanned = before ++ ⟨binderWord binder, span⟩ :: after →
        ∃! declarations, Declares (after.map SpannedToken.token) declarations) ∧
      ∀ chosen : Span → Bool,
        ProcessTree.parse options (rebind .new chosen source) = .ok tree ∧
          ∀ other, ProcessTree.parse options (rebind .lookup chosen source) = .ok other ↔
            other = tree ∧ NewLocated chosen spanned := by
  obtain ⟨spanned, lexed, derived, -⟩ := exists_derivation_of_parse parsed
  have located := located_of_process derived
  refine ⟨spanned, lexed, ?_, ?_⟩
  · rintro before binder span after rfl
    rw [List.map_append, List.map_cons] at derived
    exact exists_unique_declares derived
  · intro chosen
    constructor
    · rw [parse_rebind_iff parsed lexed]
      exact ⟨rfl, lookups_located_new located⟩
    · intro other
      rw [parse_rebind_iff parsed lexed, lookups_located_lookup_iff located]

/-- Of three words, one in a channel and one in a message, the first can become a `lookup` and the
last cannot, because only the name behind the first has a uri. -/
theorem lookup_is_new_with_uris_in_send :
    ∃ tree spanned,
      ProcessTree.parse {} "new x(`u`) in {Nil} | @lookup y(`v`) in {Nil}!(new z in {Nil})" =
        .ok tree ∧
      SpannedToken.ofSource {}
        "new x(`u`) in {Nil} | @lookup y(`v`) in {Nil}!(new z in {Nil})".toList = .ok spanned ∧
      ProcessTree.parse {} "new x(`u`) in {Nil} | @new y(`v`) in {Nil}!(new z in {Nil})" =
        .ok tree ∧
      ProcessTree.parse {} "lookup x(`u`) in {Nil} | @lookup y(`v`) in {Nil}!(new z in {Nil})" =
        .ok tree ∧
      (∀ other, ProcessTree.parse {}
        "lookup x(`u`) in {Nil} | @lookup y(`v`) in {Nil}!(lookup z in {Nil})" ≠ .ok other) ∧
      NewLocated (fun span => span.start == 0) spanned ∧
      ¬ NewLocated (fun _ => true) spanned := by
  let source : String := "new x(`u`) in {Nil} | @lookup y(`v`) in {Nil}!(new z in {Nil})"
  let tree : ProcessTree := .par [.restrict [⟨"x", some "u"⟩] .nil,
    .send (.restrict [⟨"y", some "v"⟩] .nil) (.restrict [⟨"z", none⟩] .nil)]
  have parsed : ProcessTree.parse {} source = .ok tree := by cbv
  have newer : rebind .new (fun _ => true) source =
      "new x(`u`) in {Nil} | @new y(`v`) in {Nil}!(new z in {Nil})" := by decide +kernel
  have first : rebind .lookup (fun span => span.start == 0) source =
      "lookup x(`u`) in {Nil} | @lookup y(`v`) in {Nil}!(new z in {Nil})" := by decide +kernel
  have older : rebind .lookup (fun _ => true) source =
      "lookup x(`u`) in {Nil} | @lookup y(`v`) in {Nil}!(lookup z in {Nil})" := by decide +kernel
  have firstParsed : ProcessTree.parse {}
      "lookup x(`u`) in {Nil} | @lookup y(`v`) in {Nil}!(new z in {Nil})" = .ok tree := by cbv
  have failed : ProcessTree.parse {}
      "lookup x(`u`) in {Nil} | @lookup y(`v`) in {Nil}!(lookup z in {Nil})" =
        .error (.syntactic ⟨⟨59, 61⟩, ["`(`"], some "`in`"⟩) := by cbv
  obtain ⟨spanned, lexed, -, rebound⟩ := lookup_is_new_with_uris {} source tree parsed
  have newerParsed := (rebound fun _ => true).1
  have onlyFirst := (rebound fun span => span.start == 0).2 tree
  have all := (rebound fun _ => true).2 tree
  rw [newer] at newerParsed
  rw [first] at onlyFirst
  rw [older, failed] at all
  refine ⟨tree, spanned, parsed, lexed, newerParsed, firstParsed, ?_, ?_, ?_⟩
  · rw [failed]
    exact fun other accepted => by cases accepted
  · exact (onlyFirst.1 firstParsed).2
  · intro located
    cases all.2 ⟨rfl, located⟩

end RhoFrontend
