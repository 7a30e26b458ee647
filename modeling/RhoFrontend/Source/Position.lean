/-!
Byte spans of a source text and the line and column of a byte offset. Offsets and columns count
the bytes of the UTF-8 form, never characters. Lines and columns start at zero here and at one
where they are shown.
-/

namespace RhoFrontend

def byteLength : List Char → Nat
  | [] => 0
  | head :: rest => head.utf8Size + byteLength rest

@[simp] theorem byte_length_nil : byteLength [] = 0 := rfl

@[simp] theorem byte_length_cons (head : Char) (rest : List Char) :
    byteLength (head :: rest) = head.utf8Size + byteLength rest := rfl

@[simp] theorem byte_length_append (left right : List Char) :
    byteLength (left ++ right) = byteLength left + byteLength right := by
  induction left with
  | nil => simp
  | cons head rest ih => simp [ih, Nat.add_assoc]

/-- A stretch of source text, by the byte offsets of its two ends. -/
structure Span where
  start : Nat
  stop : Nat
deriving DecidableEq, Repr

structure Position where
  line : Nat
  column : Nat
deriving DecidableEq, Repr

namespace Position

/-- Source order: by line, then by column. -/
def order (left right : Position) : Ordering :=
  (compare left.line right.line).then (compare left.column right.column)

def describe (position : Position) : String :=
  s!"{position.line + 1}:{position.column + 1}"

end Position

/-- Where each line of a source starts, first line first, and how long the source is. -/
structure LineTable where
  starts : List Nat
  length : Nat

namespace LineTable

/-- The offsets just after each newline of a text that itself begins at `offset`. -/
def startsAfter (offset : Nat) : List Char → List Nat
  | [] => []
  | char :: rest =>
      let next := offset + char.utf8Size
      if char = '\n' then next :: startsAfter next rest else startsAfter next rest

def ofSource (source : List Char) : LineTable :=
  ⟨0 :: startsAfter 0 source, byteLength source⟩

def lineCount (table : LineTable) : Nat := table.starts.length

/-- The last line that starts at or before the offset, and the distance from its start. An
offset past the end counts as the end. -/
def position (table : LineTable) (offset : Nat) : Position :=
  let offset := min offset table.length
  let reached := table.starts.takeWhile (· ≤ offset)
  ⟨reached.length - 1, offset - reached.getLastD 0⟩

end LineTable

/-- A span together with the positions of its ends. The span is kept as it was given, even
where it is reversed or reaches past the end of the source. -/
structure Region where
  span : Span
  start : Position
  stop : Position

namespace Region

def ofSpan (table : LineTable) (span : Span) : Region :=
  ⟨span, table.position span.start, table.position span.stop⟩

def describe (region : Region) : String :=
  region.start.describe ++ ".." ++ region.stop.describe

end Region

end RhoFrontend
