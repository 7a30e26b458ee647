import RhoFrontend.Proofs.Lexing
import RhoFrontend.Proofs.LongestMatch

/-!
Texts put together from trivia and the spellings of tokens. Complete trivia leaves no trace but the
offsets behind it, whatever that text is, and a token is read from its own characters as long as the
text behind it does not extend it. Conversely every text that is read without an error is put
together like this, so what is true of all layouts is true of all such texts.
-/

namespace RhoFrontend

theorem byte_length_pos {text : List Char} (nonempty : text ≠ []) : 0 < byteLength text := by
  obtain ⟨first, rest, rfl⟩ := List.exists_cons_of_ne_nil nonempty
  have positive := first.utf8Size_pos
  rw [byte_length_cons]
  omega

/-- One piece of trivia that takes nothing of the text behind it. A line comment needs its newline
for that. -/
inductive TriviaItem : List Char → Prop
  | blank {char : Char} (blank : char ∈ [' ', '\t', '\r', '\n', '\x0c']) : TriviaItem [char]
  | blockComment {body : List Char} (first : ¬ ['*', '/'] <:+: body) :
      TriviaItem ('/' :: '*' :: (body ++ ['*', '/']))
  | lineComment {body : List Char} (inLine : '\n' ∉ body) :
      TriviaItem ('/' :: '/' :: (body ++ ['\n']))

/-- Any number of such pieces, also none. -/
inductive TriviaText : List Char → Prop
  | none : TriviaText []
  | more {item rest : List Char} (first : TriviaItem item) (others : TriviaText rest) :
      TriviaText (item ++ rest)

theorem TriviaText.of_item {item : List Char} (only : TriviaItem item) : TriviaText item := by
  have single := TriviaText.more only .none
  rwa [List.append_nil] at single

theorem TriviaText.of_blanks {run : List Char}
    (blank : ∀ char ∈ run, char ∈ [' ', '\t', '\r', '\n', '\x0c']) : TriviaText run := by
  induction run with
  | nil => exact .none
  | cons first rest induction =>
      obtain ⟨head, others⟩ := List.forall_mem_cons.1 blank
      exact .more (.blank head) (induction others)

namespace Piece

theorem comment_of_lacks_newline {piece : Piece} (lacks : piece.lacksNewline = true) :
    piece.lexeme = .trivia .lineComment := by
  rw [lacksNewline, Bool.and_eq_true, beq_iff_eq] at lacks
  exact lacks.1

theorem lacks_newline_of_open {body : List Char} (inLine : '\n' ∉ body) :
    lacksNewline ⟨.trivia .lineComment, '/' :: '/' :: body⟩ = true := by
  have last : ('/' :: '/' :: body).getLast? ≠ some '\n' := by
    intro newline
    have member := List.mem_of_getLast? newline
    simp [inLine] at member
  rw [lacksNewline, Bool.and_eq_true, bne_iff_ne]
  exact ⟨rfl, last⟩

theorem lacks_newline_of_ended (body : List Char) :
    lacksNewline ⟨.trivia .lineComment, '/' :: '/' :: (body ++ ['\n'])⟩ = false := by
  have last : ('/' :: '/' :: (body ++ ['\n'])).getLast? = some '\n' :=
    List.getLast?_concat (l := '/' :: '/' :: body)
  rw [lacksNewline, last]
  rfl

end Piece

theorem Token.Spelled.nonempty {token : Token} {text : List Char} (spelled : token.Spelled text) :
    text ≠ [] := by
  have atEnd : token.EndsBefore [] := fun char none => by cases none
  obtain ⟨first, body, rfl, -⟩ := Lexeme.exists_next_of_spelled spelled atEnd
  exact List.cons_ne_nil first body

/-- No token goes on with a character that trivia starts with. -/
theorem Token.ends_before_trivia (token : Token) {item : List Char} (first : TriviaItem item)
    (rest : List Char) : token.EndsBefore (item ++ rest) := by
  have foreign : ∀ char ∈ item.head?, isNamePart char = false ∧ char.isDigit = false := by
    cases first with
    | blank blank =>
        rintro char ⟨⟩
        simp only [List.mem_cons, List.not_mem_nil, or_false] at blank
        rcases blank with rfl | rfl | rfl | rfl | rfl <;> decide
    | blockComment | lineComment =>
        rintro char ⟨⟩
        decide
  have sameHead : (item ++ rest).head? = item.head? := by
    cases first <;> rfl
  intro char starts
  rw [sameHead] at starts
  have notTaken := foreign char starts
  cases token with
  | keyword | identifier => exact notTaken.1
  | integer => exact notTaken.2
  | string | uri | punctuation => rfl

namespace SpannedToken

/-- The significant tokens of a text that begins at an offset of a source and reaches its end. -/
def ofTextAt (options : Options) (offset : Nat) (text : List Char) :
    Except LexicalError (List SpannedToken) :=
  ofPieces options (Piece.withSpans offset (Piece.ofText text))

variable {options : Options} {offset : Nat} {text rest : List Char}

theorem behind_nothing (result : Except LexicalError (List SpannedToken)) :
    result.map ([] ++ ·) = result := by
  cases result <;> rfl

theorem of_text_at_nil : ofTextAt options offset [] = .ok [] := by
  rw [ofTextAt, Piece.ofText]
  rfl

theorem of_text_at_token {token : Token}
    (cut : Piece.ofText (text ++ rest) = ⟨.token token, text⟩ :: Piece.ofText rest) :
    ofTextAt options offset (text ++ rest) =
      (ofTextAt options (offset + byteLength text) rest).map
        (⟨token, ⟨offset, offset + byteLength text⟩⟩ :: ·) := by
  rw [ofTextAt, cut]
  rfl

theorem of_text_at_trivia {kind : Trivia}
    (cut : Piece.ofText (text ++ rest) = ⟨.trivia kind, text⟩ :: Piece.ofText rest)
    (complete : Piece.lacksNewline ⟨.trivia kind, text⟩ = false) :
    ofTextAt options offset (text ++ rest) =
      ofTextAt options (offset + byteLength text) rest := by
  rw [ofTextAt, cut]
  simp only [Piece.withSpans, ofPieces, Piece.significant, complete, Bool.and_false]
  rfl

/-- A run of blanks is one piece, but nothing shows where in the run the text began. -/
theorem of_text_at_blanks (text : List Char) : ofTextAt options offset text =
    ofTextAt options (offset + byteLength (text.takeWhile isBlank)) (text.dropWhile isBlank) := by
  cases text with
  | nil => rfl
  | cons first rest =>
      by_cases blank : isBlank first = true
      · rw [List.takeWhile_cons_of_pos blank, List.dropWhile_cons_of_pos blank]
        obtain ⟨inside, outside, rfl, taken, blanks, stops⟩ := Lexeme.exists_span isBlank rest
        have dropped : (inside ++ outside).dropWhile isBlank = outside := by
          have whole := List.takeWhile_append_dropWhile (p := isBlank) (l := inside ++ outside)
          rw [taken] at whole
          exact List.append_cancel_left whole
        have cut : Piece.ofText (first :: inside ++ outside) =
            ⟨.trivia .whitespace, first :: inside⟩ :: Piece.ofText outside := by
          apply Piece.of_text_of_longest_match
          have found : LongestMatch (first :: (inside ++ outside)) _ :=
            Lexeme.blank_longest_match blank
          rwa [taken, List.take_left] at found
        rw [taken, dropped, ← of_text_at_trivia cut rfl]
        rfl
      · rw [List.takeWhile_cons_of_neg blank, List.dropWhile_cons_of_neg blank]
        rfl

theorem of_text_at_blank {first : Char} (blank : isBlank first = true) :
    ofTextAt options offset (first :: rest) = ofTextAt options (offset + first.utf8Size) rest := by
  rw [of_text_at_blanks (first :: rest), of_text_at_blanks rest,
    List.takeWhile_cons_of_pos blank, List.dropWhile_cons_of_pos blank, byte_length_cons,
    Nat.add_assoc]

theorem of_text_at_item {item : List Char} (first : TriviaItem item) :
    ofTextAt options offset (item ++ rest) =
      ofTextAt options (offset + byteLength item) rest := by
  cases first with
  | blank blank => exact of_text_at_blank ((Rule.blank_iff _).1 blank)
  | @blockComment body first =>
      have complete : Piece.lacksNewline
          ⟨.trivia .blockComment, '/' :: '*' :: (body ++ ['*', '/'])⟩ = false := rfl
      apply of_text_at_trivia _ complete
      apply Piece.of_text_of_longest_match
      rw [List.cons_append, List.cons_append, List.append_assoc]
      exact Lexeme.block_comment_longest_match first
  | @lineComment body inLine =>
      apply of_text_at_trivia _ (Piece.lacks_newline_of_ended body)
      apply Piece.of_text_of_longest_match
      have taken : (body ++ '\n' :: rest).takeWhile (· != '\n') = body := by
        apply Lexeme.take_while_append
        · intro char member
          rw [bne_iff_ne]
          rintro rfl
          exact inLine member
        · rintro char ⟨⟩
          rfl
      have longest := Lexeme.line_comment_longest_match (body ++ '\n' :: rest)
      rw [taken, List.take_length_add_append] at longest
      simpa using longest

/-- Trivia leaves no trace but the offsets behind it. -/
theorem of_text_at_trivia_text {gap : List Char} (trivia : TriviaText gap) :
    ofTextAt options offset (gap ++ rest) = ofTextAt options (offset + byteLength gap) rest := by
  induction trivia generalizing offset with
  | none => rfl
  | more first others induction =>
      rw [List.append_assoc, of_text_at_item first, induction, byte_length_append, Nat.add_assoc]

theorem of_text_at_spelled {token : Token} (spelled : token.Spelled text)
    (ends : token.EndsBefore rest) :
    ofTextAt options offset (text ++ rest) =
      (ofTextAt options (offset + byteLength text) rest).map
        (⟨token, ⟨offset, offset + byteLength text⟩⟩ :: ·) :=
  of_text_at_token (Piece.of_text_of_spelled spelled ends)

end SpannedToken

/-! Where a text begins only moves the spans. -/

def Span.moved (distance : Nat) (span : Span) : Span :=
  ⟨span.start + distance, span.stop + distance⟩

def SpannedToken.moved (distance : Nat) (each : SpannedToken) : SpannedToken :=
  ⟨each.token, each.span.moved distance⟩

def LexicalError.moved (distance : Nat) (error : LexicalError) : LexicalError :=
  ⟨error.fault, error.span.moved distance, error.text⟩

namespace SpannedToken

theorem of_pieces_moved (options : Options) (distance offset : Nat) (pieces : List Piece) :
    ofPieces options (Piece.withSpans (offset + distance) pieces) =
      ((ofPieces options (Piece.withSpans offset pieces)).map
        (List.map (moved distance))).mapError (LexicalError.moved distance) := by
  induction pieces generalizing offset with
  | nil => rfl
  | cons piece rest induction =>
      have next : offset + distance + byteLength piece.text =
          offset + byteLength piece.text + distance := Nat.add_right_comm _ _ _
      simp only [Piece.withSpans, ofPieces, Piece.significant, next]
      have others := induction (offset + byteLength piece.text)
      cases piece.lexeme with
      | token token =>
          simp only [others]
          cases ofPieces options (Piece.withSpans (offset + byteLength piece.text) rest) <;> rfl
      | malformed cause => rfl
      | trivia kind =>
          by_cases rejected : (options.strictLineComments && piece.lacksNewline) = true
          · simp only [rejected, if_true]
            rfl
          · simp only [rejected]
            exact others

theorem of_text_at_moved {options : Options} {offset : Nat} {text : List Char}
    {spanned : List SpannedToken} (read : ofTextAt options offset text = .ok spanned)
    (distance : Nat) :
    ofTextAt options (offset + distance) text = .ok (spanned.map (moved distance)) := by
  rw [ofTextAt] at read
  rw [ofTextAt, of_pieces_moved, read]
  rfl

end SpannedToken

/-- The tokens that a text at an offset is read as when it is put together from trivia and
spellings. Only at the very end a line comment may lack its newline. -/
inductive Layout : Nat → List Char → List SpannedToken → Prop
  | finished {offset : Nat} : Layout offset [] []
  | openComment {offset : Nat} {body : List Char} (inLine : '\n' ∉ body) :
      Layout offset ('/' :: '/' :: body) []
  | trivia {offset : Nat} {item rest : List Char} {spanned : List SpannedToken}
      (first : TriviaItem item) (others : Layout (offset + byteLength item) rest spanned) :
      Layout offset (item ++ rest) spanned
  | token {offset : Nat} {token : Token} {text rest : List Char} {spanned : List SpannedToken}
      (spelled : token.Spelled text) (ends : token.EndsBefore rest)
      (others : Layout (offset + byteLength text) rest spanned) :
      Layout offset (text ++ rest) (⟨token, ⟨offset, offset + byteLength text⟩⟩ :: spanned)

theorem Layout.behind {offset : Nat} {gap rest : List Char} {spanned : List SpannedToken}
    (trivia : TriviaText gap) (others : Layout (offset + byteLength gap) rest spanned) :
    Layout offset (gap ++ rest) spanned := by
  induction trivia generalizing offset with
  | none => exact others
  | more first later induction =>
      rw [List.append_assoc]
      apply Layout.trivia first
      apply induction
      rwa [byte_length_append, ← Nat.add_assoc] at others

/-- A line comment takes whatever comes next. -/
theorem Rule.line_comment_with_next {body : List Char} (inLine : '\n' ∉ body) (next : Char) :
    Rule.Reads .lineComment ('/' :: '/' :: (body ++ [next])) (.trivia .lineComment) := by
  by_cases newline : next = '\n'
  · subst newline
    exact .lineComment inLine (.inr rfl)
  · have inLonger : '\n' ∉ body ++ [next] := by
      simp [inLine, Ne.symm newline]
    have reads := Rule.Reads.lineComment inLonger (.inl rfl)
    rwa [List.append_nil] at reads

/-- A line comment without a newline is open to the end of the text: with one more character it
would be a longer match. -/
theorem LongestMatch.rest_of_lacks_newline {piece : Piece} {rest : List Char}
    (longest : LongestMatch (piece.text ++ rest) piece) (lacks : piece.lacksNewline = true) :
    (∃ body, '\n' ∉ body ∧ piece.text = '/' :: '/' :: body) ∧ rest = [] := by
  obtain ⟨lexeme, text⟩ := piece
  have isComment : lexeme = .trivia .lineComment := Piece.comment_of_lacks_newline lacks
  subst isComment
  cases longest with
  | matched reads start longest priority =>
      cases reads with
      | @lineComment body ending inLine ends =>
          rcases ends with rfl | rfl
          · rw [List.append_nil] at longest ⊢
            refine ⟨⟨body, inLine, rfl⟩, ?_⟩
            cases rest with
            | nil => rfl
            | cons next rest =>
                have short := longest _ _ _ (Rule.line_comment_with_next inLine next)
                  ⟨rest, by simp⟩
                simp only [List.length_cons, List.length_append, List.length_nil] at short
                omega
          · rw [Piece.lacks_newline_of_ended] at lacks
            cases lacks

/-- Any other piece of trivia takes nothing of the text behind it. -/
theorem LongestMatch.trivia_text {text : List Char} {piece : Piece} {kind : Trivia}
    (longest : LongestMatch text piece) (isTrivia : piece.lexeme = .trivia kind)
    (complete : piece.lacksNewline = false) : TriviaText piece.text := by
  obtain ⟨lexeme, found⟩ := piece
  dsimp only at isTrivia
  subst isTrivia
  cases longest with
  | matched reads start longest priority =>
      cases reads with
      | whitespace nonempty blank => exact .of_blanks blank
      | blockComment first => exact .of_item (.blockComment first)
      | @lineComment body ending inLine ends =>
          rcases ends with rfl | rfl
          · rw [List.append_nil, Piece.lacks_newline_of_open inLine] at complete
            cases complete
          · exact .of_item (.lineComment inLine)

/-- A piece that is read as a token is a spelling of it that the text behind does not extend. -/
theorem LongestMatch.spelled {piece : Piece} {rest : List Char} {token : Token}
    (longest : LongestMatch (piece.text ++ rest) piece) (isToken : piece.lexeme = .token token) :
    token.Spelled piece.text ∧ token.EndsBefore rest := by
  obtain ⟨lexeme, text⟩ := piece
  dsimp only at longest isToken ⊢
  subst isToken
  obtain ⟨first, body, rfl⟩ := List.exists_cons_of_ne_nil longest.nonempty
  have found := Lexeme.next_longest_match first (body ++ rest)
  have same := found.unique longest
  simp only [Piece.mk.injEq, List.cons.injEq, true_and] at same
  obtain ⟨isToken, taken⟩ := same
  have next : Lexeme.next first (body ++ rest) =
      ⟨.token token, (Lexeme.next first (body ++ rest)).further⟩ := by
    rw [← isToken]
  obtain ⟨inside, after, split, length, spelled, ends⟩ := Lexeme.spelled_of_next next
  rw [length, split, List.take_left] at taken
  subst taken
  rw [List.append_cancel_left split]
  exact ⟨spelled, ends⟩

/-- Whatever is read without an error is laid out like this. -/
theorem layout_of_cut {text : List Char} {pieces : List Piece}
    (cut : CutByLongestMatch text pieces) {offset : Nat} {spanned : List SpannedToken}
    (read : SpannedToken.ofPieces {} (Piece.withSpans offset pieces) = .ok spanned) :
    Layout offset text spanned := by
  induction cut generalizing offset spanned with
  | finished =>
      cases read
      exact .finished
  | @piece piece rest pieces longest others induction =>
      rcases SpannedToken.of_pieces_cons read with
        ⟨token, later, isToken, readLater, rfl⟩ | ⟨⟨kind, isTrivia⟩, readLater⟩
      · have spelled := longest.spelled isToken
        exact .token spelled.1 spelled.2 (induction readLater)
      · by_cases lacks : piece.lacksNewline = true
        · obtain ⟨⟨body, inLine, shape⟩, rfl⟩ := longest.rest_of_lacks_newline lacks
          have last : pieces = [] := others.unique .finished
          subst last
          cases readLater
          rw [List.append_nil, shape]
          exact .openComment inLine
        · apply Layout.behind (longest.trivia_text isTrivia (Bool.eq_false_iff.2 lacks))
          exact induction readLater

theorem layout_of_text_at {offset : Nat} {text : List Char} {spanned : List SpannedToken}
    (read : SpannedToken.ofTextAt {} offset text = .ok spanned) : Layout offset text spanned :=
  layout_of_cut (cut_by_longest_match_of_text text) read

namespace Layout

variable {offset : Nat} {text : List Char} {spanned : List SpannedToken}

/-- A newline behind the text ends whatever was open at the end of it. -/
theorem read_before_newline (layout : Layout offset text spanned) (options : Options)
    (rest : List Char) :
    SpannedToken.ofTextAt options offset (text ++ '\n' :: rest) =
      (SpannedToken.ofTextAt options (offset + byteLength text + 1) rest).map (spanned ++ ·) := by
  induction layout with
  | finished =>
      rw [SpannedToken.behind_nothing]
      exact SpannedToken.of_text_at_blank rfl
  | @openComment offset body inLine =>
      have item : SpannedToken.ofTextAt options offset
          ('/' :: '/' :: (body ++ ['\n']) ++ rest) = _ :=
        SpannedToken.of_text_at_item (.lineComment inLine)
      have ends : byteLength ('/' :: '/' :: (body ++ ['\n'])) =
          byteLength ('/' :: '/' :: body) + 1 := by
        rw [← List.cons_append, ← List.cons_append, byte_length_append]
        rfl
      rw [ends, ← Nat.add_assoc] at item
      rw [SpannedToken.behind_nothing, ← item]
      simp
  | trivia first others induction =>
      rw [List.append_assoc, SpannedToken.of_text_at_item first, induction, byte_length_append,
        ← Nat.add_assoc]
  | @token offset token text after spanned spelled ends others induction =>
      have endsNow : token.EndsBefore (after ++ '\n' :: rest) := by
        cases after with
        | nil =>
            have newline : TriviaItem ['\n'] := .blank (by simp)
            exact token.ends_before_trivia newline rest
        | cons next after => exact ends
      rw [List.append_assoc, SpannedToken.of_text_at_spelled spelled endsNow, induction,
        byte_length_append, ← Nat.add_assoc]
      cases SpannedToken.ofTextAt options (offset + byteLength text + byteLength after + 1) rest <;>
        rfl

end Layout

end RhoFrontend
