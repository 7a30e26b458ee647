import Mathlib.Data.String.Basic
import RhoFrontend.Proofs.Lexing.Layout
import RhoFrontend.Proofs.Parsing

/-!
Where the pieces of a source lie. Their spans follow on from one another from the first byte to the
last, so no byte is lost or read twice, and a piece depends on nothing but its own text: cut out of
the source and read alone, it is the same piece again.
-/

namespace RhoFrontend

/-- The spans follow on from one another between two offsets, and none of them is empty. -/
inductive Tiles : Nat → Nat → List Span → Prop
  | none {offset : Nat} : Tiles offset offset []
  | more {start middle stop : Nat} {rest : List Span} (nonempty : start < middle)
      (others : Tiles middle stop rest) : Tiles start stop (⟨start, middle⟩ :: rest)

namespace Span

/-- One span ends before the other one starts. -/
def Before (left right : Span) : Prop := left.start < right.start ∧ left.stop ≤ right.start

/-- Neither end of the span is inside a character. -/
def OnBoundaries (source : String) (span : Span) : Prop :=
  String.Pos.Raw.IsValid source ⟨span.start⟩ ∧ String.Pos.Raw.IsValid source ⟨span.stop⟩

/-- The text that a source has between the ends of the span. -/
def textIn (source : String) (span : Span) : String :=
  String.Pos.Raw.extract source ⟨span.start⟩ ⟨span.stop⟩

theorem byte_length_eq_utf8_len (text : List Char) : byteLength text = String.utf8Len text := by
  rw [← String.utf8ByteSize_ofList, ← byte_length_eq_utf8_byte_size, String.toList_ofList]

section Split

variable {source : String} {before text after : List Char}
  (split : source.toList = before ++ (text ++ after))

include split

theorem text_in_split :
    textIn source ⟨byteLength before, byteLength (before ++ text)⟩ = String.ofList text := by
  have valid := String.extract_of_valid before text after
  rwa [← byte_length_eq_utf8_len, ← byte_length_eq_utf8_len, ← byte_length_append,
    List.append_assoc, ← split, String.ofList_toList] at valid

theorem on_boundaries_split :
    OnBoundaries source ⟨byteLength before, byteLength (before ++ text)⟩ := by
  have whole : source = String.ofList (before ++ (text ++ after)) := by
    rw [← split, String.ofList_toList]
  have start (chars : List Char) :
      (⟨byteLength chars⟩ : String.Pos.Raw) = (String.ofList chars).rawEndPos := by
    rw [String.rawEndPos_ofList, byte_length_eq_utf8_len]
  constructor
  · apply String.Pos.Raw.isValid_iff_exists_append.2
    exact ⟨_, _, whole.trans String.ofList_append, start before⟩
  · apply String.Pos.Raw.isValid_iff_exists_append.2
    rw [← List.append_assoc] at whole
    exact ⟨_, _, whole.trans String.ofList_append, start (before ++ text)⟩

end Split

end Span

namespace Tiles

variable {start stop : Nat} {spans : List Span}

theorem le (tiles : Tiles start stop spans) : start ≤ stop := by
  induction tiles with
  | none => exact Nat.le_refl _
  | more nonempty others induction => omega

theorem bounds (tiles : Tiles start stop spans) :
    ∀ span ∈ spans, start ≤ span.start ∧ span.start < span.stop ∧ span.stop ≤ stop := by
  induction tiles with
  | none => exact fun span none => by cases none
  | more nonempty others induction =>
      have reach := others.le
      intro span member
      rcases List.mem_cons.1 member with rfl | later
      · exact ⟨Nat.le_refl _, nonempty, reach⟩
      · have inside := induction span later
        omega

theorem stop_of_last (tiles : Tiles start stop spans) {span : Span}
    (last : spans.getLast? = some span) : span.stop = stop := by
  induction tiles with
  | none => cases last
  | @more start middle stop rest nonempty others induction =>
      cases rest with
      | nil =>
          cases others
          cases last
          rfl
      | cons second rest =>
          rw [List.getLast?_cons_cons] at last
          exact induction last

theorem pairwise_before (tiles : Tiles start stop spans) : spans.Pairwise Span.Before := by
  induction tiles with
  | none => exact .nil
  | more nonempty others induction =>
      apply List.Pairwise.cons _ induction
      intro span member
      have inside := others.bounds span member
      exact ⟨by dsimp only; omega, inside.1⟩

end Tiles

namespace Piece

/-- Every piece of a source with its span, trivia and errors included. -/
def ofSource (source : List Char) : List (Piece × Span) := withSpans 0 (ofText source)

theorem tiles_with_spans {text : List Char} {pieces : List Piece}
    (cut : CutByLongestMatch text pieces) (offset : Nat) :
    Tiles offset (offset + byteLength text) ((withSpans offset pieces).map Prod.snd) := by
  induction cut generalizing offset with
  | finished => exact .none
  | @piece piece rest pieces longest others induction =>
      have tail := induction (offset + byteLength piece.text)
      rw [Nat.add_assoc, ← byte_length_append] at tail
      have positive := byte_length_pos longest.nonempty
      exact Tiles.more (by omega) tail

theorem text_of_pieces {text : List Char} {pieces : List Piece}
    (cut : CutByLongestMatch text pieces) : pieces.flatMap Piece.text = text := by
  induction cut with
  | finished => rfl
  | piece longest others induction => rw [List.flatMap_cons, induction]

theorem map_with_spans (offset : Nat) (pieces : List Piece) :
    (withSpans offset pieces).map Prod.fst = pieces := by
  induction pieces generalizing offset with
  | nil => rfl
  | cons first rest induction => rw [withSpans, List.map_cons, induction]

end Piece

/-- What cannot be continued in a longer text cannot be continued in a shorter one, so a longest
match is also one where it is all the text there is. -/
theorem LongestMatch.alone {piece : Piece} {rest : List Char}
    (longest : LongestMatch (piece.text ++ rest) piece) : LongestMatch piece.text piece := by
  have inside : piece.text <+: piece.text ++ rest := List.prefix_append _ _
  generalize whole : piece.text ++ rest = text at longest inside
  cases longest with
  | matched reads start maximal priority =>
      apply LongestMatch.matched reads List.prefix_rfl _ priority
      intro other longer lexeme otherReads isStart
      exact maximal other longer lexeme otherReads (isStart.trans inside)
  | openComment unmatched opens => exact .openComment unmatched opens
  | openLiteral unmatched opens => exact .openLiteral unmatched opens
  | @stray first others same unmatched noComment noLiteral =>
      have only : [first] = first :: [] := rfl
      apply LongestMatch.stray only
      · intro rule start lexeme reads isStart
        exact unmatched rule start lexeme reads (isStart.trans inside)
      · intro opens
        exact noComment (List.IsPrefix.trans opens inside)
      · intro opens
        exact noLiteral (opens.imp (·.trans inside) (·.trans inside))

/-- A piece has the text of its span, and would be read from that text alone. -/
theorem Piece.placed_in_source {source : String} {piece : Piece} {span : Span}
    (member : (piece, span) ∈ Piece.ofSource source.toList) :
    span.OnBoundaries source ∧ span.textIn source = String.ofList piece.text ∧
      LongestMatch piece.text piece := by
  have cut := cut_by_longest_match_of_text source.toList
  obtain ⟨before, after, split, longest, place⟩ := Piece.with_spans_bytes cut member
  rw [Nat.zero_add, Nat.zero_add] at place
  subst place
  exact ⟨Span.on_boundaries_split split, Span.text_in_split split, longest.alone⟩

theorem Piece.tiles_source (source : String) :
    Tiles 0 source.utf8ByteSize ((Piece.ofSource source.toList).map Prod.snd) := by
  have spans := Piece.tiles_with_spans (cut_by_longest_match_of_text source.toList) 0
  rwa [Nat.zero_add, byte_length_eq_utf8_byte_size] at spans

namespace SpannedToken

/-- The significant tokens are among the pieces, in their order and with their spans. -/
theorem sublist_of_pieces {options : Options} {pieces : List (Piece × Span)}
    {spanned : List SpannedToken} (read : ofPieces options pieces = .ok spanned) :
    (spanned.map fun each => (Lexeme.token each.token, each.span)).Sublist
      (pieces.map fun each => (each.1.lexeme, each.2)) := by
  induction pieces generalizing spanned with
  | nil =>
      cases read
      exact .slnil
  | cons first rest induction =>
      obtain ⟨piece, span⟩ := first
      rcases of_pieces_cons read with ⟨token, others, isToken, readOthers, rfl⟩ | ⟨-, readOthers⟩
      · rw [List.map_cons, List.map_cons, isToken]
        exact (induction readOthers).cons_cons _
      · exact (induction readOthers).cons _

end SpannedToken

/-- The pieces of a source tile it along character boundaries, none depends on its surroundings, and
the tokens among them lie one behind the other inside the source. -/
theorem pieces_tile_source (source : String) :
    Tiles 0 source.utf8ByteSize ((Piece.ofSource source.toList).map Prod.snd) ∧
      String.join ((Piece.ofSource source.toList).map fun each => each.2.textIn source) =
        source ∧
      (∀ (piece : Piece) (span : Span), (piece, span) ∈ Piece.ofSource source.toList →
        span.OnBoundaries source ∧ span.textIn source = String.ofList piece.text ∧
          Piece.ofSource (span.textIn source).toList =
            [(piece, ⟨0, (span.textIn source).utf8ByteSize⟩)]) ∧
      ∀ (options : Options) (spanned : List SpannedToken),
        SpannedToken.ofSource options source.toList = .ok spanned →
          (spanned.map fun each => (Lexeme.token each.token, each.span)).Sublist
            ((Piece.ofSource source.toList).map fun each => (each.1.lexeme, each.2)) ∧
          (spanned.map SpannedToken.span).Pairwise Span.Before ∧
          ∀ each ∈ spanned,
            each.span.start < each.span.stop ∧ each.span.stop ≤ source.utf8ByteSize := by
  have tiles := Piece.tiles_source source
  refine ⟨tiles, ?_, ?_, ?_⟩
  · have texts : (Piece.ofSource source.toList).map (fun each => each.2.textIn source) =
        (Piece.ofText source.toList).map fun piece => String.ofList piece.text := by
      rw [← Piece.map_with_spans 0 (Piece.ofText source.toList), List.map_map]
      apply List.map_congr_left
      intro each member
      exact (Piece.placed_in_source member).2.1
    rw [texts, ← String.toList_inj, String.toList_join, List.flatMap_map]
    simp only [String.toList_ofList]
    exact Piece.text_of_pieces (cut_by_longest_match_of_text source.toList)
  · intro piece span member
    obtain ⟨boundaries, text, alone⟩ := Piece.placed_in_source member
    refine ⟨boundaries, text, ?_⟩
    rw [← List.append_nil piece.text] at alone
    have single := Piece.of_text_of_longest_match alone
    rw [List.append_nil, Piece.ofText] at single
    rw [text, String.toList_ofList, Piece.ofSource, single, String.utf8ByteSize_ofList,
      ← Span.byte_length_eq_utf8_len, Piece.withSpans, Piece.withSpans, Nat.zero_add]
  · intro options spanned lexed
    have sublist := SpannedToken.sublist_of_pieces lexed
    have spans : (spanned.map SpannedToken.span).Sublist
        ((Piece.ofSource source.toList).map Prod.snd) := by
      have projected := sublist.map Prod.snd
      rwa [List.map_map, List.map_map] at projected
    refine ⟨sublist, tiles.pairwise_before.sublist spans, ?_⟩
    intro each member
    exact (tiles.bounds each.span (spans.subset (List.mem_map_of_mem member))).2

/-- A character of two bytes moves the spans behind it, and the arrow is one token with and without
its neighbours. -/
theorem pieces_tile_source_around_arrow :
    Piece.ofSource "`é`<-//".toList =
        [(⟨.token (.uri "é"), ['\x60', 'é', '\x60']⟩, ⟨0, 4⟩),
          (⟨.token (.punctuation .leftArrow), ['<', '-']⟩, ⟨4, 6⟩),
          (⟨.trivia .lineComment, ['/', '/']⟩, ⟨6, 8⟩)] ∧
      SpannedToken.ofSource {} "`é`<-//".toList =
        .ok [⟨.uri "é", ⟨0, 4⟩⟩, ⟨.punctuation .leftArrow, ⟨4, 6⟩⟩] ∧
      Tiles 0 8 [⟨0, 4⟩, ⟨4, 6⟩, ⟨6, 8⟩] ∧
      Piece.ofSource (Span.textIn "`é`<-//" ⟨4, 6⟩).toList =
        [(⟨.token (.punctuation .leftArrow), ['<', '-']⟩, ⟨0, 2⟩)] ∧
      [(⟨0, 4⟩ : Span), ⟨4, 6⟩].Pairwise Span.Before := by
  have pieces : Piece.ofSource "`é`<-//".toList =
      [(⟨.token (.uri "é"), ['\x60', 'é', '\x60']⟩, ⟨0, 4⟩),
        (⟨.token (.punctuation .leftArrow), ['<', '-']⟩, ⟨4, 6⟩),
        (⟨.trivia .lineComment, ['/', '/']⟩, ⟨6, 8⟩)] := by cbv
  have lexed : SpannedToken.ofSource {} "`é`<-//".toList =
      .ok [⟨.uri "é", ⟨0, 4⟩⟩, ⟨.punctuation .leftArrow, ⟨4, 6⟩⟩] := by cbv
  obtain ⟨tiles, -, alone, tokens⟩ := pieces_tile_source "`é`<-//"
  rw [pieces] at tiles alone
  have arrow := (alone ⟨.token (.punctuation .leftArrow), ['<', '-']⟩ ⟨4, 6⟩ (by simp)).2.2
  exact ⟨pieces, lexed, tiles, arrow, (tokens {} _ lexed).2.1⟩

end RhoFrontend
