import RhoFrontend.Text.Invisible

/-!
Text in double quotes as messages show it. Every character can be told apart: the common controls
have short escapes, other invisible characters show their code point, and the rest is written as
it is.
-/

namespace RhoFrontend.Text

def quotedChar (char : Char) : List Char :=
  match char with
  | '\t' => ['\\', 't']
  | '\r' => ['\\', 'r']
  | '\n' => ['\\', 'n']
  | '\x00' => ['\\', '0']
  | '"' => ['\\', '"']
  | '\\' => ['\\', '\\']
  | _ =>
      if isInvisible char then
        ['\\', 'u', '{'] ++ Nat.toDigits 16 char.toNat ++ ['}']
      else [char]

def quoted (text : String) : String :=
  String.ofList ('"' :: (text.toList.flatMap quotedChar ++ ['"']))

/-- Quoted texts as a list in brackets. -/
def quotedList (texts : List String) : String :=
  "[" ++ String.intercalate ", " (texts.map quoted) ++ "]"

end RhoFrontend.Text
