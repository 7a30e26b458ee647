import Mathlib.Data.List.Induction
import Mathlib.Data.List.TakeWhile
import RhoFrontend.Proofs.SourceBytes

/-!
Offsets and positions. The bytes before an offset are some whole lines and the beginning of one
more: the position counts those lines and measures that beginning. The table of line starts has the
offset where that line begins, whichever way the table is searched, so an offset can be told from
its position, and positions are in the order of offsets.
-/

namespace RhoFrontend

/-- Where the last line of some bytes begins: directly behind their last newline, or at zero where
they have none. -/
structure LastLineStart (bytes : List UInt8) (start : Nat) : Prop where
  within : start ≤ bytes.length
  opens : start = 0 ∨ bytes[start - 1]? = some newlineByte
  unbroken : newlineByte ∉ bytes.drop start

/-- Nothing stands behind the last newline, or there are no bytes at all. -/
def WholeLines (bytes : List UInt8) : Prop := ∀ last ∈ bytes.getLast?, last = newlineByte

theorem exists_last_line (bytes : List UInt8) : ∃ lines current,
    bytes = lines ++ current ∧ WholeLines lines ∧ newlineByte ∉ current := by
  induction bytes using List.reverseRecOn with
  | nil => exact ⟨[], [], rfl, nofun, List.not_mem_nil⟩
  | append_singleton before byte induction =>
      by_cases newline : byte = newlineByte
      · refine ⟨before ++ [byte], [], (List.append_nil _).symm, ?_, List.not_mem_nil⟩
        intro last isLast
        rw [List.getLast?_concat] at isLast
        cases isLast
        exact newline
      · obtain ⟨lines, current, rfl, whole, unbroken⟩ := induction
        refine ⟨lines, current ++ [byte], List.append_assoc .., whole, ?_⟩
        exact List.not_mem_append unbroken (by simpa using Ne.symm newline)

theorem last_line_start_of_split {lines current : List UInt8} (whole : WholeLines lines)
    (unbroken : newlineByte ∉ current) : LastLineStart (lines ++ current) lines.length where
  within := by
    rw [List.length_append]
    omega
  opens := by
    rcases List.eq_nil_or_concat lines with rfl | ⟨before, last, rfl⟩
    · exact .inl rfl
    · have newline : last = newlineByte := whole last (by simp)
      right
      simp [newline]
  unbroken := by rwa [List.drop_left]

namespace LineTable

/-! The table, where the bytes up to an offset are whole lines and the beginning of another one. -/

theorem length_reached (lines : List UInt8) :
    (0 :: lines.findIdxs (· == newlineByte) 1).length = lines.count newlineByte + 1 := by
  rw [List.length_cons, List.length_findIdxs, List.count]

/-- The last line to start there or before starts where the whole lines end. -/
theorem last_reached {lines : List UInt8} (whole : WholeLines lines) :
    (0 :: lines.findIdxs (· == newlineByte) 1).getLast? = some lines.length := by
  rcases List.eq_nil_or_concat' lines with rfl | ⟨before, last, rfl⟩
  · rfl
  · have newline : last = newlineByte := whole last (by simp)
    have behind : [last].findIdxs (· == newlineByte) (1 + before.length) = [1 + before.length] := by
      rw [newline]
      rfl
    rw [List.findIdxs_append, behind, ← List.cons_append, List.getLast?_concat, List.length_append,
      List.length_singleton, Nat.add_comm]

section Split

variable {source : List Char} {lines current rest : List UInt8}
  (split : utf8Bytes source = lines ++ current ++ rest) (unbroken : newlineByte ∉ current)

include split unbroken

theorem starts_of_split : (ofSource source).starts =
    (0 :: lines.findIdxs (· == newlineByte) 1) ++
      rest.findIdxs (· == newlineByte) (lines.length + current.length + 1) := by
  have none : current.findIdxs (· == newlineByte) (1 + lines.length) = [] := by
    apply List.findIdxs_eq_nil_iff.2
    exact fun byte member => beq_false_of_ne fun same => unbroken (same ▸ member)
  have behind : 1 + (lines ++ current).length = lines.length + current.length + 1 := by
    rw [List.length_append, Nat.add_comm]
  rw [starts_of_source, split, List.findIdxs_append, List.findIdxs_append, none, List.append_nil,
    behind, List.cons_append]

/-- The starts of the whole lines and of the one begun are those at the offset or before it. -/
theorem start_le_iff {index start : Nat} (here : (ofSource source).starts[index]? = some start) :
    start ≤ lines.length + current.length ↔ index ≤ lines.count newlineByte := by
  have reached := length_reached lines
  rw [starts_of_split split unbroken] at here
  by_cases earlier : index < (0 :: lines.findIdxs (· == newlineByte) 1).length
  · rw [List.getElem?_append_left earlier] at here
    apply iff_of_true _ (by omega)
    rcases List.mem_cons.1 (List.mem_of_getElem? here) with rfl | later
    · exact Nat.zero_le _
    · have inside := List.lt_add_of_mem_findIdxs start later
      omega
  · rw [List.getElem?_append_right (Nat.le_of_not_lt earlier)] at here
    have outside := List.ge_of_mem_findIdxs start (List.mem_of_getElem? here)
    apply iff_of_false <;> omega

theorem reached_of_split :
    (ofSource source).starts.takeWhile (· ≤ lines.length + current.length) =
      0 :: lines.findIdxs (· == newlineByte) 1 := by
  have reached : ∀ start ∈ 0 :: lines.findIdxs (· == newlineByte) 1,
      decide (start ≤ lines.length + current.length) = true := by
    intro start member
    rw [decide_eq_true_iff]
    rcases List.mem_cons.1 member with rfl | later
    · exact Nat.zero_le _
    · have inside := List.lt_add_of_mem_findIdxs start later
      omega
  have beyond : (rest.findIdxs (· == newlineByte) (lines.length + current.length + 1)).takeWhile
      (· ≤ lines.length + current.length) = [] := by
    apply List.takeWhile_eq_nil_iff.2
    intro nonempty
    have outside := List.ge_of_mem_findIdxs _ (List.get_mem _ ⟨0, nonempty⟩)
    rw [decide_eq_true_iff]
    omega
  rw [starts_of_split split unbroken, List.takeWhile_append_of_pos reached, beyond, List.append_nil]

variable (whole : WholeLines lines)

include whole

theorem start_of_split : (ofSource source).starts[lines.count newlineByte]? =
    some lines.length := by
  have last := last_reached whole
  rw [List.getLast?_eq_getElem?, length_reached, Nat.add_sub_cancel] at last
  rw [starts_of_split split unbroken, List.getElem?_append_left, last]
  rw [length_reached]
  exact Nat.lt_succ_self _

theorem position_of_split : (ofSource source).position (lines.length + current.length) =
    ⟨lines.count newlineByte, current.length⟩ := by
  have total : (ofSource source).length = lines.length + current.length + rest.length := by
    rw [← List.length_append, ← List.length_append, ← split, length_utf8_bytes, ofSource]
  have inside : min (lines.length + current.length) (ofSource source).length =
      lines.length + current.length := by
    omega
  rw [position]
  simp only [inside, reached_of_split split unbroken, length_reached, List.getLastD_eq_getLast?,
    last_reached whole, Option.getD_some, Nat.add_sub_cancel, Nat.add_sub_cancel_left]

end Split

theorem starts_increasing (source : List Char) : (ofSource source).starts.Pairwise (· < ·) := by
  rw [starts_of_source]
  exact List.Pairwise.cons (fun start member => List.ge_of_mem_findIdxs start member)
    List.pairwise_findIdxs

end LineTable

/-! Searching the table. -/

/-- What a search in an increasing list comes to: where the item is, or where it would have to be
put in. -/
inductive Sought
  | found (index : Nat)
  | missing (index : Nat)

namespace Sought

/-- The outcome is right for the item. -/
def Holds (items : List Nat) (item : Nat) : Sought → Prop
  | .found index => items[index]? = some item
  | .missing index => index ≤ items.length ∧ (∀ earlier ∈ items.take index, earlier < item) ∧
      ∀ later ∈ items.drop index, item < later

/-- The line that an offset is on, where the starts of all lines were searched for it. There is
none if the offset comes before all of them. -/
def line? : Sought → Option Nat
  | .found index => some index
  | .missing 0 => none
  | .missing (index + 1) => some index

section Increasing

variable {items : List Nat} {item line : Nat} (increasing : items.Pairwise (· < ·))
  (inside : line < items.length)
  (reached : ∀ (index : Nat) (bound : index < items.length), items[index] ≤ item ↔ index ≤ line)

include increasing inside reached

theorem exists_holds : ∃ outcome : Sought, outcome.Holds items item := by
  have below : items[line] ≤ item := (reached line inside).2 (Nat.le_refl line)
  by_cases same : items[line] = item
  · exact ⟨.found line, by rw [Holds, List.getElem?_eq_getElem inside, same]⟩
  · refine ⟨.missing (line + 1), inside, ?_, ?_⟩
    · intro earlier member
      obtain ⟨index, bound, rfl⟩ := List.mem_take_iff_getElem.1 member
      rcases Nat.lt_or_eq_of_le (show index ≤ line by omega) with before | rfl
      · have less := List.pairwise_iff_getElem.1 increasing index line (by omega) inside before
        omega
      · omega
    · intro later member
      obtain ⟨distance, bound, rfl⟩ := List.mem_drop_iff_getElem.1 member
      have beyond := mt (reached (line + 1 + distance) (by omega)).1 (by omega)
      omega

/-- The search cannot end anywhere else than at the last line to start in time. -/
theorem line_of_holds {outcome : Sought} (right : outcome.Holds items item) :
    outcome.line? = some line := by
  have below : items[line] ≤ item := (reached line inside).2 (Nat.le_refl line)
  cases outcome with
  | found index =>
      obtain ⟨bound, here⟩ := List.getElem?_eq_some_iff.1 right
      have upper : index ≤ line := (reached index bound).1 (Nat.le_of_eq here)
      rcases Nat.lt_or_eq_of_le upper with before | rfl
      · have less := List.pairwise_iff_getElem.1 increasing index line bound inside before
        omega
      · rfl
  | missing index =>
      obtain ⟨bound, earlier, later⟩ := right
      have lower : line < index := by
        by_contra outside
        have above := later items[line] (List.mem_drop_iff_getElem.2
          ⟨line - index, by omega, by congr 1; omega⟩)
        omega
      have upper : index ≤ line + 1 := by
        by_contra outside
        have next := earlier items[line + 1] (List.mem_take_iff_getElem.2
          ⟨line + 1, by omega, rfl⟩)
        have tooFar := (reached (line + 1) (by omega)).1 (Nat.le_of_lt next)
        omega
      obtain rfl : index = line + 1 := by omega
      rfl

end Increasing

end Sought

namespace LineTable

/-- Every place in a source stands on a line that its bytes begin. -/
theorem exists_split_at {source : List Char} {place : Nat} (inside : place ≤ byteLength source) :
    ∃ lines current rest, utf8Bytes source = lines ++ current ++ rest ∧ WholeLines lines ∧
      newlineByte ∉ current ∧ (utf8Bytes source).take place = lines ++ current ∧
        place = lines.length + current.length := by
  obtain ⟨lines, current, split, whole, unbroken⟩ :=
    exists_last_line ((utf8Bytes source).take place)
  refine ⟨lines, current, (utf8Bytes source).drop place, ?_, whole, unbroken, split, ?_⟩
  · rw [← split, List.take_append_drop]
  · rw [← List.length_append, ← split, List.length_take_of_le (by rwa [length_utf8_bytes])]

theorem position_of_clamped (table : LineTable) (offset : Nat) :
    table.position (min offset table.length) = table.position offset := by
  rw [position, position, Nat.min_assoc, Nat.min_self]

theorem line_of_search {source : List Char} {lines current rest : List UInt8}
    (split : utf8Bytes source = lines ++ current ++ rest) (unbroken : newlineByte ∉ current)
    (whole : WholeLines lines) :
    (∃ outcome : Sought,
        outcome.Holds (ofSource source).starts (lines.length + current.length)) ∧
      ∀ outcome : Sought,
        outcome.Holds (ofSource source).starts (lines.length + current.length) →
          outcome.line? = some (lines.count newlineByte) := by
  obtain ⟨inside, -⟩ := List.getElem?_eq_some_iff.1 (start_of_split split unbroken whole)
  have reached : ∀ (index : Nat) (bound : index < (ofSource source).starts.length),
      (ofSource source).starts[index] ≤ lines.length + current.length ↔
        index ≤ lines.count newlineByte :=
    fun index bound => start_le_iff split unbroken (List.getElem?_eq_getElem bound)
  exact ⟨Sought.exists_holds (starts_increasing source) inside reached,
    fun _ right => Sought.line_of_holds (starts_increasing source) inside reached right⟩

/-- Two positions on one line are measured from the same start, so their columns are in order. -/
theorem position_order {source : List Char} {left right : Nat} (before : left < right)
    (inside : right ≤ byteLength source) :
    ((ofSource source).position left).order ((ofSource source).position right) = .lt := by
  obtain ⟨lines, current, rest, split, whole, unbroken, taken, rfl⟩ :=
    exists_split_at (Nat.le_trans (Nat.le_of_lt before) inside)
  obtain ⟨otherLines, otherCurrent, otherRest, otherSplit, otherWhole, otherUnbroken, otherTaken,
    rfl⟩ := exists_split_at inside
  rw [position_of_split split unbroken whole,
    position_of_split otherSplit otherUnbroken otherWhole, Position.order]
  have fewer : lines.count newlineByte ≤ otherLines.count newlineByte := by
    apply (start_le_iff otherSplit otherUnbroken (start_of_split split unbroken whole)).1
    omega
  rcases Nat.lt_or_eq_of_le fewer with less | same
  · rw [Nat.compare_eq_lt.2 less]
    rfl
  · have start := start_of_split split unbroken whole
    rw [same, start_of_split otherSplit otherUnbroken otherWhole] at start
    have starts : otherLines.length = lines.length := Option.some.inj start
    have shorter : current.length < otherCurrent.length := by omega
    rw [Nat.compare_eq_eq.2 same, Nat.compare_eq_lt.2 shorter]
    rfl

end LineTable

/-- The position of an offset, or of the end of the source if the offset is past it: as many lines
as there are newlines before, and the distance from the last of them. Every search of the table that
is right leads to that line, and the table has its start, from which the column leads back to the
offset. Offsets in a source have their positions in the same order. -/
theorem positions_correspond_to_offsets (source : List Char) :
    (∀ offset, ∃ place start line column,
      place = min offset (byteLength source) ∧
        (LineTable.ofSource source).position offset = ⟨line, column⟩ ∧
        line = ((utf8Bytes source).take place).count newlineByte ∧
        LastLineStart ((utf8Bytes source).take place) start ∧ column = place - start ∧
        line < (LineTable.ofSource source).lineCount ∧
        (∃ outcome : Sought, outcome.Holds (LineTable.ofSource source).starts place) ∧
        (∀ outcome : Sought, outcome.Holds (LineTable.ofSource source).starts place →
          outcome.line? = some line) ∧
        (LineTable.ofSource source).starts[line]? = some start ∧ start ≤ place ∧
        start + column = place) ∧
      ∀ left right, left < right → right ≤ byteLength source →
        ((LineTable.ofSource source).position left).order
          ((LineTable.ofSource source).position right) = .lt := by
  refine ⟨fun offset => ?_, fun left right => LineTable.position_order⟩
  have inside : min offset (byteLength source) ≤ byteLength source := Nat.min_le_right _ _
  have clamped := (LineTable.ofSource source).position_of_clamped offset
  obtain ⟨lines, current, rest, split, whole, unbroken, taken, place⟩ :=
    LineTable.exists_split_at inside
  have start := LineTable.start_of_split split unbroken whole
  obtain ⟨exists_outcome, only⟩ := LineTable.line_of_search split unbroken whole
  refine ⟨_, lines.length, lines.count newlineByte, current.length, rfl, ?_, ?_, ?_, ?_,
    (List.getElem?_eq_some_iff.1 start).1, ?_, ?_, start, ?_, place.symm⟩
  · rw [← clamped]
    exact place ▸ LineTable.position_of_split split unbroken whole
  · rw [taken, List.count_append, List.count_eq_zero.2 unbroken, Nat.add_zero]
  · rw [taken]
    exact last_line_start_of_split whole unbroken
  · omega
  · rwa [place]
  · rwa [place]
  · omega

/-- An offset inside a character, on the line before the empty one at the end. A search does not find
it in the table, and would put it in behind the start of that line. -/
theorem positions_correspond_to_offsets_inside_character :
    2 < 4 ∧ 4 ≤ byteLength "\né\n".toList ∧
      (LineTable.ofSource "\né\n".toList).position 2 = ⟨1, 1⟩ ∧
      ((LineTable.ofSource "\né\n".toList).position 2).order
        ((LineTable.ofSource "\né\n".toList).position 4) = .lt ∧
      (Sought.missing 2).Holds (LineTable.ofSource "\né\n".toList).starts 2 ∧
      (Sought.missing 2).line? = some 1 := by
  have before : 2 < 4 := by decide
  have inside : 4 ≤ byteLength "\né\n".toList := by decide
  have right : (Sought.missing 2).Holds (LineTable.ofSource "\né\n".toList).starts 2 :=
    ⟨by decide, by decide, by decide⟩
  obtain ⟨positions, order⟩ := positions_correspond_to_offsets "\né\n".toList
  have position : (LineTable.ofSource "\né\n".toList).position 2 = ⟨1, 1⟩ := by decide
  obtain ⟨place, start, line, column, rfl, same, -, -, -, -, -, only, -⟩ := positions 2
  rw [position] at same
  cases same
  exact ⟨before, inside, position, order 2 4 before inside, right, only _ right⟩

end RhoFrontend
