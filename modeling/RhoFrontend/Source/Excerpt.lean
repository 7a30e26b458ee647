import RhoFrontend.Source.Lines

/-!
The numbered lines around a place in a source, which accompany an error there.
-/

namespace RhoFrontend

/-- A number in at least three columns, moved to the right. -/
def lineNumberText (number : Nat) : List Char :=
  let digits := Nat.toDigits 10 number
  List.replicate (3 - digits.length) ' ' ++ digits

/-- One line of an excerpt; the line in question carries the mark. -/
def excerptLine (marked : Nat) (index : Nat) (line : List Char) : List Char :=
  (if index = marked then ['>', '>'] else [' ', ' ']) ++
    ' ' :: lineNumberText (index + 1) ++ [' ', '|', ' '] ++ line ++ ['\n']

/-- The line numbered `marked`, counted from zero, with up to two lines on either side. -/
def excerpt (source : List Char) (marked : Nat) : List Char :=
  let first := marked - 2
  let shown := ((sourceLines source).take (marked + 3)).drop first
  (shown.mapIdx fun index line => excerptLine marked (first + index) line).flatten

end RhoFrontend
