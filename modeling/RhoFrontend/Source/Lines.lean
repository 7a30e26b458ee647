/-!
The lines of a text, without what ends them.
-/

namespace RhoFrontend

/-- A line ends with a newline, together with a carriage return that stands directly before it.
No empty line follows a newline at the end of the text. -/
def sourceLines : List Char → List (List Char)
  | [] => []
  | '\n' :: rest => [] :: sourceLines rest
  | '\r' :: '\n' :: rest => [] :: sourceLines rest
  | char :: rest =>
      match sourceLines rest with
      | [] => [[char]]
      | line :: later => (char :: line) :: later

end RhoFrontend
