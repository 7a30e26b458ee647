import RhoFrontend.Proofs.Lines
import RhoFrontend.Source.Excerpt

/-!
What an excerpt shows of its source. It is read back line by line: the mark, the number and the text
of each line that is at most two away from the one in question. The texts are the stretches of the
source that begin where the table of line starts says, so an offset with a byte of some line in it
has that byte at its column of the line.
-/

namespace RhoFrontend

/-- A line as an excerpt shows it. -/
structure NumberedLine where
  marked : Bool
  number : Nat
  text : List Char
deriving DecidableEq

namespace NumberedLine

/-- The number behind any blanks, and the text behind the bar. -/
def numbered? (shown : List Char) : Option (Nat × List Char) :=
  let number := shown.dropWhile (· == ' ')
  match number.dropWhile Char.isDigit with
  | ' ' :: '|' :: ' ' :: text =>
      some (Nat.ofDigitChars 10 (number.takeWhile Char.isDigit) 0, text)
  | _ => none

/-- What a line of an excerpt says, by the mark or the blanks that it opens with. -/
def read? : List Char → Option NumberedLine
  | '>' :: '>' :: ' ' :: shown => (numbered? shown).map fun (number, text) => ⟨true, number, text⟩
  | ' ' :: ' ' :: ' ' :: shown => (numbered? shown).map fun (number, text) => ⟨false, number, text⟩
  | _ => none

/-- The line without the newline that ends it. -/
def written (line : NumberedLine) : List Char :=
  (if line.marked then ['>', '>'] else [' ', ' ']) ++
    ' ' :: (lineNumberText line.number ++ ([' ', '|', ' '] ++ line.text))

end NumberedLine

theorem no_newline_in_line_number (number : Nat) : '\n' ∉ lineNumberText number := by
  rw [lineNumberText, List.mem_append]
  rintro (blank | digit)
  · have same := List.eq_of_mem_replicate blank
    revert same
    decide
  · have isDigit := Nat.isDigit_of_mem_toDigits (by decide) (by decide) digit
    revert isDigit
    decide

namespace NumberedLine

theorem numbered_of_text (number : Nat) (text : List Char) :
    numbered? (lineNumberText number ++ ([' ', '|', ' '] ++ text)) = some (number, text) := by
  have digits : ∀ char ∈ Nat.toDigits 10 number, char.isDigit = true :=
    fun char member => Nat.isDigit_of_mem_toDigits (by decide) (by decide) member
  have opens : ∀ rest, (Nat.toDigits 10 number ++ rest).dropWhile (· == ' ') =
      Nat.toDigits 10 number ++ rest := by
    intro rest
    obtain ⟨first, others, spelled⟩ := List.exists_cons_of_ne_nil
      (Nat.toDigits_ne_nil : Nat.toDigits 10 number ≠ [])
    rw [spelled] at digits
    have noBlank : first ≠ ' ' := by
      rintro rfl
      exact absurd (digits ' ' List.mem_cons_self) (by decide)
    rw [spelled, List.cons_append, List.dropWhile_cons_of_neg (by simpa using noBlank)]
  have blanks : ∀ char ∈ List.replicate (3 - (Nat.toDigits 10 number).length) ' ',
      (char == ' ') = true :=
    fun char member => beq_iff_eq.2 (List.eq_of_mem_replicate member)
  rw [numbered?, lineNumberText, List.append_assoc, List.dropWhile_append_of_pos blanks, opens,
    List.dropWhile_append_of_pos digits, List.takeWhile_append_of_pos digits]
  simp [Nat.ofDigitChars_ten_toDigits]

theorem read_written (line : NumberedLine) : read? line.written = some line := by
  obtain ⟨marked, number, text⟩ := line
  cases marked
  all_goals
    change (numbered? (lineNumberText number ++ ([' ', '|', ' '] ++ text))).map _ = _
    rw [numbered_of_text]
    rfl

theorem no_newline_in_written {line : NumberedLine} (free : '\n' ∉ line.text) :
    '\n' ∉ line.written := by
  have mark : '\n' ∉ if line.marked then ['>', '>'] else [' ', ' '] := by split <;> decide
  have numbered : '\n' ∉ lineNumberText line.number ++ ([' ', '|', ' '] ++ line.text) :=
    List.not_mem_append (no_newline_in_line_number _) (List.not_mem_append (by decide) free)
  exact List.not_mem_append mark (by simpa using numbered)

end NumberedLine

/-- The lines of a source that are at most two away from the one in question, in their order. -/
def linesAround (source : List Char) (marked : Nat) : List NumberedLine :=
  ((sourceLines source).zipIdx.filter fun each => marked ≤ each.2 + 2 ∧ each.2 ≤ marked + 2).map
    fun each => ⟨each.2 == marked, each.2 + 1, each.1⟩

theorem excerpt_line_eq (marked index : Nat) (line : List Char) : excerptLine marked index line =
    NumberedLine.written ⟨index == marked, index + 1, line⟩ ++ ['\n'] := by
  by_cases same : index = marked <;> simp [excerptLine, NumberedLine.written, same]

section Window

variable {Item : Type} (items : List Item)

theorem filter_below (start count : Nat) :
    ((items.zipIdx start).filter fun each => each.2 < start + count) =
      (items.take count).zipIdx start := by
  induction items generalizing start count with
  | nil => rw [List.take_nil, List.zipIdx_nil, List.filter_nil]
  | cons first rest induction =>
      cases count with
      | zero =>
          rw [List.take_zero, List.zipIdx_nil, List.filter_eq_nil_iff]
          intro each member
          have low := List.le_snd_of_mem_zipIdx member
          rw [decide_eq_true_iff]
          omega
      | succ count =>
          have here : start < start + (count + 1) := by omega
          have next : start + (count + 1) = start + 1 + count := by omega
          rw [List.zipIdx_cons, List.filter_cons, if_pos (decide_eq_true here), next, induction,
            List.take_succ_cons, List.zipIdx_cons]

theorem filter_above (start count : Nat) :
    ((items.zipIdx start).filter fun each => start + count ≤ each.2) =
      (items.drop count).zipIdx (start + count) := by
  induction items generalizing start count with
  | nil => rw [List.drop_nil, List.zipIdx_nil, List.filter_nil, List.zipIdx_nil]
  | cons first rest induction =>
      cases count with
      | zero =>
          rw [List.drop_zero, Nat.add_zero, List.filter_eq_self]
          exact fun each member => decide_eq_true (List.le_snd_of_mem_zipIdx member)
      | succ count =>
          have here : ¬ decide (start + (count + 1) ≤ start) = true := by
            rw [decide_eq_true_iff]
            omega
          have next : start + (count + 1) = start + 1 + count := by omega
          rw [List.zipIdx_cons, List.filter_cons, if_neg here, next, induction, List.drop_succ_cons]

/-- The items with a number in a window are those behind the ones before it, as far as it goes. -/
theorem filter_window (first stop : Nat) :
    (items.zipIdx.filter fun each => first ≤ each.2 ∧ each.2 < stop) =
      ((items.take stop).drop first).zipIdx first := by
  have above := filter_above (items.take stop) 0 first
  have below := filter_below items 0 stop
  rw [Nat.zero_add] at above below
  rw [← above, ← below, List.filter_filter]
  simp only [Bool.decide_and]

end Window

/-- The window of the excerpt holds the lines that are near enough. -/
theorem excerpt_eq (source : List Char) (marked : Nat) : excerpt source marked =
    ((linesAround source marked).map NumberedLine.written).flatMap fun each => each ++ ['\n'] := by
  have near : ((sourceLines source).zipIdx.filter
        fun each => marked ≤ each.2 + 2 ∧ each.2 ≤ marked + 2) =
      (sourceLines source).zipIdx.filter fun each => marked - 2 ≤ each.2 ∧ each.2 < marked + 3 := by
    apply List.filter_congr
    intro each _
    rw [decide_eq_decide]
    omega
  have numbered (shown : List (List Char)) : shown.zipIdx (marked - 2) =
      shown.zipIdx.map fun each => (each.1, marked - 2 + each.2) := List.zipIdx_eq_map_add
  simp only [linesAround, near, filter_window, excerpt, numbered, excerpt_line_eq, List.flatMap_def,
    List.mapIdx_eq_zipIdx_map, List.map_map, Function.comp_def]

theorem lines_of_excerpt (source : List Char) (marked : Nat) :
    (excerpt source marked).splitOn '\n' =
      (linesAround source marked).map NumberedLine.written ++ [[]] := by
  rw [excerpt_eq]
  apply split_lines
  intro written member
  obtain ⟨line, around, rfl⟩ := List.mem_map.1 member
  obtain ⟨⟨text, index⟩, kept, rfl⟩ := List.mem_map.1 around
  apply NumberedLine.no_newline_in_written
  have numbered := List.mem_zipIdx_iff_getElem?.1 (List.mem_of_mem_filter kept)
  exact no_newline_in_source_line source text (List.mem_of_getElem? numbered)

/-! Lines as stretches of bytes. -/

theorem whole_lines_of_last_line_empty {text : List Char} (ends : LastLineEmpty text) :
    WholeLines (utf8Bytes text) := by
  rcases List.eq_nil_or_concat' text with rfl | ⟨before, last, rfl⟩
  · exact nofun
  · have newline : last = '\n' := ends last (by simp)
    have single : utf8Bytes [last] = [newlineByte] := by
      rw [newline]
      rfl
    intro byte isLast
    rw [utf8_bytes_append, single, List.getLast?_concat] at isLast
    cases isLast
    rfl

/-- The table has the start of every line that the source has as a text. -/
theorem start_of_source_line {before : List Char} (ends : LastLineEmpty before)
    (line after : List Char) :
    (LineTable.ofSource (before ++ line ++ after)).starts[before.count '\n']? =
      some (byteLength before) := by
  have split : utf8Bytes (before ++ line ++ after) =
      utf8Bytes before ++ [] ++ utf8Bytes (line ++ after) := by
    simp only [utf8_bytes_append, List.append_assoc, List.append_nil]
  have start := LineTable.start_of_split split List.not_mem_nil (whole_lines_of_last_line_empty ends)
  rwa [count_newline_utf8_bytes, length_utf8_bytes] at start

/-- Behind a line the first byte that is no newline and no carriage return comes after a newline. -/
theorem LineEnd.byte {line after : List Char} (lineEnd : LineEnd line after)
    {between rest : List UInt8} {byte : UInt8} (split : utf8Bytes after = between ++ byte :: rest)
    (unbroken : newlineByte ∉ between) : byte = newlineByte ∨ byte = returnByte := by
  cases lineEnd with
  | finished =>
      rw [utf8_bytes_nil] at split
      simp at split
  | newline plain =>
      rw [newline_bytes] at split
      cases between with
      | nil => exact .inl (List.cons.inj split).1.symm
      | cons first others =>
          rw [(List.cons.inj split).1] at unbroken
          exact absurd List.mem_cons_self unbroken
  | carriageReturn =>
      rw [return_bytes, newline_bytes] at split
      cases between with
      | nil => exact .inr (List.cons.inj split).1.symm
      | cons first others =>
          cases others with
          | nil => exact .inl (List.cons.inj (List.cons.inj split).2).1.symm
          | cons second others =>
              rw [(List.cons.inj (List.cons.inj split).2).1] at unbroken
              exact absurd (List.mem_cons_of_mem _ List.mem_cons_self) unbroken

section Byte

variable {source : List Char} {byte : UInt8}

theorem exists_split_of_byte {offset : Nat} (here : (utf8Bytes source)[offset]? = some byte) :
    ∃ lines current rest, utf8Bytes source = lines ++ current ++ byte :: rest ∧
      WholeLines lines ∧ newlineByte ∉ current ∧
        (LineTable.ofSource source).position offset =
          ⟨lines.count newlineByte, current.length⟩ := by
  obtain ⟨inside, found⟩ := List.getElem?_eq_some_iff.1 here
  rw [length_utf8_bytes] at inside
  obtain ⟨lines, current, rest, split, whole, unbroken, -, rfl⟩ :=
    LineTable.exists_split_at (Nat.le_of_lt inside)
  have position := LineTable.position_of_split split unbroken whole
  rw [split, ← List.length_append, List.getElem?_append_right (Nat.le_refl _), Nat.sub_self] at here
  obtain ⟨others, rfl⟩ := List.head?_eq_some_iff.1 ((List.head?_eq_getElem? ..).trans here)
  exact ⟨lines, current, others, split, whole, unbroken, position⟩

variable {lines current rest : List UInt8}
  (split : utf8Bytes source = lines ++ current ++ byte :: rest)

include split

/-- A line with a byte of its own is not the empty one behind the last newline. -/
theorem line_lt_length_source_lines :
    lines.count newlineByte < (sourceLines source).length := by
  have total : source.count '\n' =
      lines.count newlineByte + current.count newlineByte + (byte :: rest).count newlineByte := by
    rw [← count_newline_utf8_bytes, split, List.count_append, List.count_append]
  rw [length_source_lines]
  by_cases ends : LastLineEmpty source
  · have isLast := whole_lines_of_last_line_empty ends
    have nonempty : byte :: rest ≠ [] := List.cons_ne_nil byte rest
    have newline : (byte :: rest).getLast nonempty = newlineByte := by
      apply isLast
      rw [split, List.getLast?_append, List.getLast?_eq_some_getLast nonempty, Option.some_or]
      rfl
    have positive : 0 < (byte :: rest).count newlineByte := by
      rw [List.count_pos_iff, ← newline]
      exact List.getLast_mem nonempty
    omega
  · rw [if_neg ends]
    omega

theorem byte_of_source_line (whole : WholeLines lines) (unbroken : newlineByte ∉ current)
    (noNewline : byte ≠ newlineByte) (noReturn : byte ≠ returnByte) :
    ∃ line, (sourceLines source)[lines.count newlineByte]? = some line ∧
      (utf8Bytes line)[current.length]? = some byte := by
  have present := line_lt_length_source_lines split
  obtain ⟨line, here⟩ : ∃ line, (sourceLines source)[lines.count newlineByte]? = some line :=
    ⟨_, List.getElem?_eq_getElem present⟩
  refine ⟨line, here, ?_⟩
  obtain ⟨before, after, cut, ends, count, lineEnd⟩ := exists_split_of_source_line here
  -- Both ways to cut the source have the same start of the line, from the table.
  have start := LineTable.start_of_split split unbroken whole
  have sameStart := start_of_source_line ends line after
  rw [← cut, count, start] at sameStart
  have length : lines.length = (utf8Bytes before).length := by
    rw [length_utf8_bytes]
    exact Option.some.inj sameStart
  have bytes : lines ++ (current ++ byte :: rest) =
      utf8Bytes before ++ (utf8Bytes line ++ utf8Bytes after) := by
    rw [← List.append_assoc, ← split, cut, utf8_bytes_append, utf8_bytes_append, List.append_assoc]
  have behind := (List.append_inj bytes length).2
  rcases List.append_eq_append_iff.1 behind with ⟨more, lineBytes, tail⟩ | ⟨between, lineBytes, tail⟩
  · cases more with
    | nil =>
        have opens : utf8Bytes after = [] ++ byte :: rest := tail.symm
        exact ((lineEnd.byte opens List.not_mem_nil).elim noNewline noReturn).elim
    | cons first others =>
        rw [lineBytes, List.getElem?_append_right (Nat.le_refl _), Nat.sub_self,
          (List.cons.inj tail).1]
        rfl
  · rw [lineBytes] at unbroken
    have free : newlineByte ∉ between := fun member => unbroken (List.mem_append_right _ member)
    exact ((lineEnd.byte tail free).elim noNewline noReturn).elim

end Byte

/-- An excerpt says line by line which lines of the source it shows, under which numbers and with
which mark. Each of them is the stretch of the source from the start that the table has for it to
the line end, and a byte that is no part of a line end is at its position in that line. -/
theorem excerpt_agrees_with_positions (source : List Char) :
    (∀ marked, ∃ written, (excerpt source marked).splitOn '\n' = written ++ [[]] ∧
        written.map NumberedLine.read? = (linesAround source marked).map some) ∧
      (∀ (index : Nat) (line : List Char), (sourceLines source)[index]? = some line →
        '\n' ∉ line ∧ ∃ start after, (LineTable.ofSource source).starts[index]? = some start ∧
          (utf8Bytes source).drop start = utf8Bytes line ++ utf8Bytes after ∧
          LineEnd line after) ∧
      ∀ (offset : Nat) (byte : UInt8), (utf8Bytes source)[offset]? = some byte →
        byte ≠ newlineByte → byte ≠ returnByte → ∃ position line,
          (LineTable.ofSource source).position offset = position ∧
            (sourceLines source)[position.line]? = some line ∧
            (utf8Bytes line)[position.column]? = some byte := by
  refine ⟨fun marked => ?_, fun index line here => ?_, fun offset byte here noNewline noReturn => ?_⟩
  · refine ⟨_, lines_of_excerpt source marked, ?_⟩
    rw [List.map_map]
    exact List.map_congr_left fun line _ => line.read_written
  · refine ⟨no_newline_in_source_line source line (List.mem_of_getElem? here), ?_⟩
    obtain ⟨before, after, rfl, ends, rfl, lineEnd⟩ := exists_split_of_source_line here
    refine ⟨byteLength before, after, start_of_source_line ends line after, ?_, lineEnd⟩
    rw [utf8_bytes_append, utf8_bytes_append, List.append_assoc, ← length_utf8_bytes,
      List.drop_left]
  · obtain ⟨lines, current, rest, split, whole, unbroken, position⟩ := exists_split_of_byte here
    obtain ⟨line, found, inside⟩ :=
      byte_of_source_line split whole unbroken noNewline noReturn
    exact ⟨_, line, position, found, inside⟩

/-- A carriage return inside the second line and one at the end of the first. -/
theorem excerpt_agrees_with_positions_between_returns :
    (utf8Bytes "a\r\né\rb".toList)[6]? = some 98 ∧ (98 : UInt8) ≠ newlineByte ∧
      (98 : UInt8) ≠ returnByte ∧
      (LineTable.ofSource "a\r\né\rb".toList).position 6 = ⟨1, 3⟩ ∧
      (∃ line, (sourceLines "a\r\né\rb".toList)[1]? = some line ∧
        (utf8Bytes line)[3]? = some 98 ∧
        ∃ start after, (LineTable.ofSource "a\r\né\rb".toList).starts[1]? = some start ∧
          (utf8Bytes "a\r\né\rb".toList).drop start = utf8Bytes line ++ utf8Bytes after ∧
          LineEnd line after) ∧
      ∃ written, (excerpt "a\r\né\rb".toList 1).splitOn '\n' = written ++ [[]] ∧
        written.map NumberedLine.read? =
          [some ⟨false, 1, "a".toList⟩, some ⟨true, 2, "é\rb".toList⟩] := by
  obtain ⟨shown, stretches, positions⟩ := excerpt_agrees_with_positions "a\r\né\rb".toList
  have here : (utf8Bytes "a\r\né\rb".toList)[6]? = some 98 := by decide
  have noNewline : (98 : UInt8) ≠ newlineByte := by decide
  have noReturn : (98 : UInt8) ≠ returnByte := by decide
  have position : (LineTable.ofSource "a\r\né\rb".toList).position 6 = ⟨1, 3⟩ := by decide
  obtain ⟨_, line, rfl, found, inside⟩ := positions 6 98 here noNewline noReturn
  rw [position] at found inside
  exact ⟨here, noNewline, noReturn, position, ⟨line, found, inside, (stretches 1 line found).2⟩,
    shown 1⟩

end RhoFrontend
