import RhoFrontend.Proofs.Excerpts
import RhoFrontend.Proofs.LexicalErrors

/-!
Where the report on a parse error points. Its heading and its excerpt number lines in two ways, one
by the newlines before the error and one by the lines of the source as texts. They agree, so the one
line with a mark is the one in the heading, except for an error at the end of a source whose last
line is empty. That line is no line of the excerpt, and none is marked.
-/

namespace RhoFrontend

/-- The lines of a text that begin with the mark. -/
def markedLines (text : List Char) : List (List Char) :=
  (text.splitOn '\n').filter (['>', '>'].isPrefixOf ·)

/-- A line of a source with the mark, as an excerpt shows it under its number. -/
def markedLine (number : Nat) (line : List Char) : List Char :=
  '>' :: '>' :: ' ' :: (lineNumberText number ++ ([' ', '|', ' '] ++ line))

theorem mark_of_written (line : NumberedLine) :
    ['>', '>'].isPrefixOf line.written = line.marked := by
  obtain ⟨marked, number, text⟩ := line
  cases marked <;> rfl

/-- Among the lines around it only the one in question bears the mark, if the source has it. -/
theorem marked_around (source : List Char) (marked : Nat) :
    (linesAround source marked).filter (·.marked) =
      ((sourceLines source)[marked]?.toList).map fun line => ⟨true, marked + 1, line⟩ := by
  have only (index : Nat) :
      (index == marked && decide (marked ≤ index + 2 ∧ index ≤ marked + 2)) =
        decide (marked ≤ index ∧ index < marked + 1) := by
    rw [Bool.eq_iff_iff, Bool.and_eq_true, beq_iff_eq, decide_eq_true_iff, decide_eq_true_iff]
    omega
  have window : ((sourceLines source).take (marked + 1)).drop marked =
      (sourceLines source)[marked]?.toList := by
    rw [List.drop_take, Nat.add_sub_cancel_left, List.take_one, List.head?_drop]
  simp only [linesAround, List.filter_map, List.filter_filter, Function.comp_def, only,
    filter_window, window]
  cases (sourceLines source)[marked]? with
  | none => rfl
  | some line => simp

/-- The excerpt marks the line that it is asked for, if the source has it. -/
theorem marked_lines_of_excerpt (source : List Char) (marked : Nat) :
    markedLines (excerpt source marked) =
      ((sourceLines source)[marked]?.toList).map (markedLine (marked + 1)) := by
  have mark : (['>', '>'].isPrefixOf ·) ∘ NumberedLine.written = NumberedLine.marked :=
    funext mark_of_written
  rw [markedLines, lines_of_excerpt, List.filter_append, List.filter_map, mark, marked_around,
    List.map_map]
  exact List.append_nil _

/-! Every parse error has a place, and it is not inside a character. -/

section Place

variable {options : Options} {source : String}

theorem Piece.exists_split {piece : Piece} {span : Span}
    (member : (piece, span) ∈ Piece.ofSource source.toList) :
    ∃ before after, source.toList = before ++ after ∧ span.start = byteLength before := by
  have cut := cut_by_longest_match_of_text source.toList
  obtain ⟨before, after, split, -, place⟩ := Piece.with_spans_bytes cut member
  rw [place, Nat.zero_add]
  exact ⟨before, piece.text ++ after, split, rfl⟩

theorem LexicalError.exists_split {error : LexicalError}
    (failed : SpannedToken.ofSource options source.toList = .error error) :
    ∃ before after, source.toList = before ++ after ∧ error.span.start = byteLength before := by
  obtain ⟨earlier, piece, later, pieces, -⟩ := lex_eq_error_iff.1 failed
  have member : (piece, error.span) ∈ Piece.ofSource source.toList := by
    rw [pieces]
    exact List.mem_append_right earlier List.mem_cons_self
  exact Piece.exists_split member

theorem SyntaxError.exists_split {error : SyntaxError} {spanned : List SpannedToken} {index : Nat}
    (lexed : SpannedToken.ofSource options source.toList = .ok spanned)
    (stands : error.StandsAt source spanned index) :
    ∃ before after, source.toList = before ++ after ∧ error.span.start = byteLength before := by
  unfold SyntaxError.StandsAt at stands
  split at stands
  · next token span found =>
      obtain ⟨piece, member, -⟩ := SpannedToken.exists_piece lexed (List.mem_of_getElem? found)
      rw [stands.1]
      exact Piece.exists_split member
  · refine ⟨source.toList, [], (List.append_nil _).symm, ?_⟩
    rw [stands.1, byte_length_eq_utf8_byte_size]

theorem ParseError.exists_split {error : ParseError}
    (failed : ProcessTree.parse options source = .error error) :
    ∃ span before after, error.span? = some span ∧ source.toList = before ++ after ∧
      span.start = byteLength before := by
  cases lexed : SpannedToken.ofSource options source.toList with
  | error found =>
      rw [ProcessTree.parse, derivations_of_lexical_error lexed] at failed
      cases failed
      obtain ⟨before, after, split, place⟩ := LexicalError.exists_split lexed
      exact ⟨found.span, before, after, rfl, split, place⟩
  | ok spanned =>
      cases derived : ProcessTree.derivations options source with
      | ok trees =>
          obtain ⟨tree, rfl, -⟩ := (derivations_ok_iff lexed trees).1 derived
          rw [parse_ok_iff_derivations.2 derived] at failed
          cases failed
      | error found =>
          have rejected : ∀ trees, ProcessTree.derivations options source ≠ .ok trees := by
            intro trees accepted
            rw [derived] at accepted
            cases accepted
          obtain ⟨syntactic, isSyntactic⟩ := exists_syntactic_of_rejected lexed rejected
          obtain ⟨index, -, -, stands, -⟩ := SyntaxError.exists_stop lexed isSyntactic
          obtain ⟨before, after, split, place⟩ := SyntaxError.exists_split lexed stands
          rw [ProcessTree.parse, isSyntactic] at failed
          cases failed
          exact ⟨syntactic.span, before, after, rfl, split, place⟩

end Place

/-- A report is a heading with the place of the error, and an excerpt. The line of the heading has
as many newlines before it as the error has. It is the one line with a mark in the excerpt, unless
the error is at the end of a source whose last line is empty: then no line is marked. -/
theorem report_marks_failing_line (options : Options) (source : String) (error : ParseError)
    (failed : ProcessTree.parse options source = .error error) :
    ∃ (span : Span) (before after : List Char) (start : Position) (shown : List Char),
      error.span? = some span ∧ source.toList = before ++ after ∧ span.start = byteLength before ∧
        start.line = before.count '\n' ∧
        error.render source.toList =
          s!"Error at {start.describe}: {error.message}\n\n" ++ String.ofList shown ∧
        (¬ (after = [] ∧ LastLineEmpty before) →
          ∃ line, (sourceLines source.toList)[start.line]? = some line ∧
            markedLines shown = [markedLine (start.line + 1) line]) ∧
        (after = [] ∧ LastLineEmpty before → markedLines shown = []) := by
  obtain ⟨span, before, after, isSpan, split, place⟩ := ParseError.exists_split failed
  let start := (LineTable.ofSource source.toList).position span.start
  have line : start.line = before.count '\n' := by
    simp only [start, split, place]
    exact LineTable.line_of_split before after
  have exists_iff := count_lt_length_source_lines_iff before after
  rw [← split, ← line] at exists_iff
  refine ⟨span, before, after, start, excerpt source.toList start.line, isSpan, split, place, line,
    ?_, ?_, ?_⟩
  · rw [ParseError.render, isSpan]
  · intro regular
    have present := exists_iff.2 regular
    refine ⟨(sourceLines source.toList)[start.line], List.getElem?_eq_getElem present, ?_⟩
    rw [marked_lines_of_excerpt, List.getElem?_eq_getElem present]
    rfl
  · intro exceptional
    have absent := Nat.not_lt.1 fun present => exists_iff.1 present exceptional
    rw [marked_lines_of_excerpt, List.getElem?_eq_none absent]
    rfl

/-- A literal where a bar or the end was expected, between two line ends of different kinds. -/
theorem report_marks_failing_line_of_literal :
    ∃ error, ProcessTree.parse {} "Nil\r\n\"é\" 1\n" = .error error ∧
      error.span? = some ⟨5, 9⟩ ∧
      ∃ (before after : List Char) (start : Position) (shown line : List Char),
        "Nil\r\n\"é\" 1\n".toList = before ++ after ∧ 5 = byteLength before ∧
          start.line = before.count '\n' ∧
          error.render "Nil\r\n\"é\" 1\n".toList =
            s!"Error at {start.describe}: {error.message}\n\n" ++ String.ofList shown ∧
          (sourceLines "Nil\r\n\"é\" 1\n".toList)[start.line]? = some line ∧
          markedLines shown = [markedLine (start.line + 1) line] := by
  have failed : ProcessTree.parse {} "Nil\r\n\"é\" 1\n" =
      .error (.syntactic ⟨⟨5, 9⟩, ["`|`", "end of input"], some "string \"é\""⟩) := by cbv
  obtain ⟨span, before, after, start, shown, isSpan, split, place, isLine, text, regular, -⟩ :=
    report_marks_failing_line _ _ _ failed
  cases isSpan
  have inside : ¬ (after = [] ∧ LastLineEmpty before) := by
    rintro ⟨rfl, -⟩
    rw [List.append_nil] at split
    rw [← split] at place
    revert place
    decide
  obtain ⟨line, found, marked⟩ := regular inside
  exact ⟨_, failed, rfl, before, after, start, shown, line, split, place, isLine, text, found,
    marked⟩

/-- The missing operand would stand on the second line, which is empty, and the report has no marked
line at all. -/
theorem missing_operand_behind_newline_is_unmarked :
    ∃ error, ProcessTree.parse {} "Nil |\n" = .error error ∧
      error.render "Nil |\n".toList =
        "Error at 2:1: Unexpected end of input at offset 6, expected one of: `@`, `Nil`, " ++
          "`bundle`, `for`, `lookup`, `new`\n\n     1 | Nil |\n" ∧
      markedLines (error.render "Nil |\n".toList).toList = [] := by
  have failed : ProcessTree.parse {} "Nil |\n" = .error (.syntactic ⟨⟨6, 7⟩,
      ["`@`", "`Nil`", "`bundle`", "`for`", "`lookup`", "`new`"], none⟩) := by cbv
  refine ⟨_, failed, ?_, ?_⟩ <;> decide +kernel

end RhoFrontend
