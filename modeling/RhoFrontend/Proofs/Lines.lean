import Mathlib.Data.List.Count
import RhoFrontend.Proofs.Positions
import RhoFrontend.Source.Lines

/-!
Lines counted by their newlines. The table of line starts gives a place in a source the line that
has as many newlines before it. The lines of a source, taken as texts, have that line too, unless
the place is the end of the source and nothing stands on the last line. Each of them stands where
the table says that it starts, and ends where the source has a line end or is over.
-/

namespace RhoFrontend

theorem LineTable.line_of_split (before after : List Char) :
    ((ofSource (before ++ after)).position (byteLength before)).line = before.count '\n' := by
  obtain ⟨lines, current, split, whole, unbroken⟩ := exists_last_line (utf8Bytes before)
  have bytes : utf8Bytes (before ++ after) = lines ++ current ++ utf8Bytes after := by
    rw [utf8_bytes_append, split]
  have place : byteLength before = lines.length + current.length := by
    rw [← length_utf8_bytes, split, List.length_append]
  rw [place, position_of_split bytes unbroken whole, ← count_newline_utf8_bytes, split,
    List.count_append, List.count_eq_zero.2 unbroken, Nat.add_zero]

/-! The lines as texts. -/

/-- Nothing stands behind the last newline, or there is no text at all. -/
def LastLineEmpty (text : List Char) : Prop := ∀ last ∈ text.getLast?, last = '\n'

instance : DecidablePred LastLineEmpty := fun text =>
  inferInstanceAs (Decidable (∀ last ∈ text.getLast?, last = '\n'))

theorem last_line_empty_cons {first : Char} {rest : List Char} (nonempty : rest ≠ []) :
    LastLineEmpty (first :: rest) ↔ LastLineEmpty rest := by
  obtain ⟨second, later, rfl⟩ := List.exists_cons_of_ne_nil nonempty
  rw [LastLineEmpty, LastLineEmpty, List.getLast?_cons_cons]

theorem last_line_empty_newline (rest : List Char) :
    LastLineEmpty ('\n' :: rest) ↔ LastLineEmpty rest := by
  cases rest with
  | nil => simp [LastLineEmpty]
  | cons second later => exact last_line_empty_cons (List.cons_ne_nil second later)

/-- What ends with a newline line by line is split into these lines, with nothing behind them. -/
theorem split_lines {lines : List (List Char)} (free : ∀ each ∈ lines, '\n' ∉ each) :
    (lines.flatMap fun each => each ++ ['\n']).splitOn '\n' = lines ++ [[]] := by
  induction lines with
  | nil => rfl
  | cons first rest induction =>
      obtain ⟨head, others⟩ := List.forall_mem_cons.1 free
      rw [List.flatMap_cons, List.append_assoc, List.singleton_append,
        List.splitOn_append_cons_self_of_not_mem head, induction others, List.cons_append]

theorem source_lines_eq_nil_iff {text : List Char} : sourceLines text = [] ↔ text = [] := by
  fun_cases sourceLines text <;> simp_all

/-- Each newline ends a line, and what stands behind the last one is a line if it is not empty. -/
theorem length_source_lines (text : List Char) : (sourceLines text).length =
    text.count '\n' + if LastLineEmpty text then 0 else 1 := by
  fun_induction sourceLines text with
  | case1 =>
      have empty : LastLineEmpty [] := fun char none => by cases none
      rw [if_pos empty]
      rfl
  | case2 rest induction =>
      simp only [List.length_cons, induction, List.count_cons_self, last_line_empty_newline]
      omega
  | case3 rest induction =>
      have same : LastLineEmpty ('\r' :: '\n' :: rest) ↔ LastLineEmpty ('\n' :: rest) :=
        last_line_empty_cons (List.cons_ne_nil '\n' rest)
      have other : '\r' ≠ '\n' := by decide
      simp only [List.length_cons, induction, List.count_cons_of_ne other, List.count_cons_self,
        same, last_line_empty_newline]
      omega
  | case4 char rest notNewline notReturn none induction =>
      have empty : rest = [] := source_lines_eq_nil_iff.1 none
      subst empty
      have short : ¬ LastLineEmpty [char] := fun ends => notNewline (ends char rfl)
      rw [if_neg short, List.count_cons_of_ne notNewline]
      rfl
  | case5 char rest notNewline notReturn line later lines induction =>
      have nonempty : rest ≠ [] := by
        rintro rfl
        cases lines
      have same : LastLineEmpty (char :: rest) ↔ LastLineEmpty rest :=
        last_line_empty_cons nonempty
      rw [lines] at induction
      simp only [same, List.count_cons_of_ne notNewline]
      exact induction

theorem no_newline_in_source_line (text : List Char) :
    ∀ line ∈ sourceLines text, '\n' ∉ line := by
  fun_induction sourceLines text with
  | case1 => exact List.forall_mem_nil _
  | case2 rest induction | case3 rest induction =>
      exact List.forall_mem_cons.2 ⟨List.not_mem_nil, induction⟩
  | case4 char rest notNewline =>
      intro line only inside
      rw [List.mem_singleton.1 only] at inside
      exact notNewline (List.mem_singleton.1 inside).symm
  | case5 char rest notNewline notReturn line later lines induction =>
      rw [lines] at induction
      obtain ⟨first, others⟩ := List.forall_mem_cons.1 induction
      refine List.forall_mem_cons.2 ⟨?_, others⟩
      intro member
      rcases List.mem_cons.1 member with same | inside
      · exact notNewline same.symm
      · exact first inside

/-- The line with as many newlines before it as a place has is there, unless the place is the end
of the text and behind its last newline. -/
theorem count_lt_length_source_lines_iff (before after : List Char) :
    before.count '\n' < (sourceLines (before ++ after)).length ↔
      ¬ (after = [] ∧ LastLineEmpty before) := by
  rw [length_source_lines, List.count_append]
  by_cases atEnd : after = []
  · subst atEnd
    rw [List.append_nil]
    by_cases ends : LastLineEmpty before <;> simp [ends]
  · have inside : ¬ (after = [] ∧ LastLineEmpty before) := fun both => atEnd both.1
    apply iff_of_true _ inside
    by_cases ends : LastLineEmpty (before ++ after)
    · have isLast : (before ++ after).getLast? = some (after.getLast atEnd) := by
        rw [List.getLast?_append, List.getLast?_eq_some_getLast atEnd, Option.some_or]
      have newline : '\n' ∈ after := by
        rw [← ends _ isLast]
        exact List.getLast_mem atEnd
      have positive := List.count_pos_iff.2 newline
      omega
    · rw [if_neg ends]
      omega

theorem eq_nil_of_last_line_empty {text : List Char} (ends : LastLineEmpty text)
    (none : text.count '\n' = 0) : text = [] := by
  by_contra nonempty
  have newline := ends _ (List.getLast?_eq_some_getLast nonempty)
  have member := List.getLast_mem nonempty
  rw [newline] at member
  exact List.count_eq_zero.1 none member

/-- How a line ends: with the text, or before a newline, which a carriage return may precede. The
carriage return is not part of the line then. -/
inductive LineEnd (line : List Char) : List Char → Prop
  | finished : LineEnd line []
  | newline {later : List Char} (plain : line.getLast? ≠ some '\r') : LineEnd line ('\n' :: later)
  | carriageReturn {later : List Char} : LineEnd line ('\r' :: '\n' :: later)

/-- A line stands behind as many whole lines as come before it in the list. -/
theorem exists_split_of_source_line {text line : List Char} {index : Nat}
    (here : (sourceLines text)[index]? = some line) : ∃ before after,
      text = before ++ line ++ after ∧ LastLineEmpty before ∧ before.count '\n' = index ∧
        LineEnd line after := by
  fun_induction sourceLines text generalizing index line with
  | case1 => cases here
  | case2 rest induction =>
      cases index with
      | zero =>
          cases here
          exact ⟨[], '\n' :: rest, rfl, nofun, rfl, .newline nofun⟩
      | succ index =>
          obtain ⟨before, after, split, ends, count, lineEnd⟩ := induction here
          refine ⟨'\n' :: before, after, by rw [split]; rfl, (last_line_empty_newline _).2 ends, ?_,
            lineEnd⟩
          rw [List.count_cons_self, count]
  | case3 rest induction =>
      cases index with
      | zero =>
          cases here
          exact ⟨[], '\r' :: '\n' :: rest, rfl, nofun, rfl, .carriageReturn⟩
      | succ index =>
          obtain ⟨before, after, split, ends, count, lineEnd⟩ := induction here
          have other : '\r' ≠ '\n' := by decide
          refine ⟨'\r' :: '\n' :: before, after, by rw [split]; rfl, ?_, ?_, lineEnd⟩
          · rw [last_line_empty_cons (List.cons_ne_nil _ _), last_line_empty_newline]
            exact ends
          · rw [List.count_cons_of_ne other, List.count_cons_self, count]
  | case4 char rest notNewline notReturn none induction =>
      have empty : rest = [] := source_lines_eq_nil_iff.1 none
      cases index with
      | zero =>
          cases here
          exact ⟨[], [], by rw [empty]; rfl, nofun, rfl, .finished⟩
      | succ index => cases here
  | case5 char rest notNewline notReturn next later lines induction =>
      rw [lines] at induction
      cases index with
      | zero =>
          cases here
          have first : (next :: later)[0]? = some next := rfl
          obtain ⟨before, after, split, ends, count, lineEnd⟩ := induction first
          obtain rfl := eq_nil_of_last_line_empty ends count
          refine ⟨[], after, by rw [split]; rfl, nofun, rfl, ?_⟩
          cases lineEnd with
          | finished => exact .finished
          | newline plain =>
              apply LineEnd.newline
              cases next with
              | nil =>
                  rintro ⟨⟩
                  exact notReturn _ rfl split
              | cons second others => rwa [List.getLast?_cons_cons]
          | carriageReturn => exact .carriageReturn
      | succ index =>
          have inner : (next :: later)[index + 1]? = some line := here
          obtain ⟨before, after, split, ends, count, lineEnd⟩ := induction inner
          have nonempty : before ≠ [] := by
            rintro rfl
            cases count
          refine ⟨char :: before, after, by rw [split]; rfl, (last_line_empty_cons nonempty).2 ends,
            ?_, lineEnd⟩
          rw [List.count_cons_of_ne notNewline, count]

end RhoFrontend
