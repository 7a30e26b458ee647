import RhoFrontend.Text.Hexadecimal

/-!
The text of settings files in TOML below its values: spaces, comments and line ends, strings, and
keys. A reader gives what it read and the text after it.
-/

namespace RhoFrontend.Settings.Toml

def isSpace (char : Char) : Bool := char == ' ' || char == '\t'

def isKeyChar (char : Char) : Bool := char.isAlphanum || char == '_' || char == '-'

/-- The characters of strings and comments: no control but the tab. -/
def isTextChar (char : Char) : Bool :=
  char == '\t' || (0x20 ≤ char.toNat && char.toNat != 0x7f)

def skipSpace (text : List Char) : List Char := text.dropWhile isSpace

/-- What comes after a line end. A carriage return is one only with its newline. -/
def afterNewline? : List Char → Option (List Char)
  | '\n' :: rest => some rest
  | '\r' :: '\n' :: rest => some rest
  | _ => none

/-- What comes after a line on which nothing is left but a comment. -/
def afterLine? (text : List Char) : Option (List Char) :=
  let after :=
    match skipSpace text with
    | '#' :: comment => comment.dropWhile isTextChar
    | rest => rest
  if after.isEmpty then some [] else afterNewline? after

/-- Skips spaces and line ends, and comments where there is a mark that starts them. They end with
their lines. -/
def skipLayout (mark : Option Char) (inComment : Bool) : List Char → List Char
  | [] => []
  | '\n' :: rest => skipLayout mark false rest
  | '\r' :: '\n' :: rest => skipLayout mark false rest
  | char :: rest =>
      if inComment then
        if isTextChar char then skipLayout mark true rest else char :: rest
      else if isSpace char then skipLayout mark false rest
      else if some char == mark then skipLayout mark true rest
      else char :: rest

/-- The character of an escape with this many hexadecimal digits. -/
def codeEscape? (length : Nat) (text : List Char) : Option (List Char × Nat) :=
  match Hexadecimal.valueOfFirst? length text with
  | some code => if code.isValidChar then some ([Char.ofNat code], length + 1) else none
  | none => none

/-- The character of an escape, from the text after the backslash, and the length of that text. -/
def escape? : List Char → Option (List Char × Nat)
  | 'b' :: _ => some (['\x08'], 1)
  | 't' :: _ => some (['\t'], 1)
  | 'n' :: _ => some (['\n'], 1)
  | 'f' :: _ => some (['\x0c'], 1)
  | 'r' :: _ => some (['\r'], 1)
  | '"' :: _ => some (['"'], 1)
  | '\\' :: _ => some (['\\'], 1)
  | 'u' :: rest => codeEscape? 4 rest
  | 'U' :: rest => codeEscape? 8 rest
  | _ => none

/-- A backslash at the end of a line stands for nothing, together with all spaces and line ends
after it. -/
def lineEscape? (text : List Char) : Option (List Char × Nat) :=
  (afterNewline? (skipSpace text)).map fun rest =>
    ([], text.length - (skipLayout none false rest).length)

/-- How a string is quoted. With double quotes it may have escapes. -/
structure Quoting where
  quote : Char
  multiLine : Bool

namespace Quoting

def escaped? (quoting : Quoting) (text : List Char) : Option (List Char × Nat) :=
  if quoting.multiLine then (lineEscape? text).or (escape? text) else escape? text

/-- What comes after the closing quotes, from the text after the first of them, and which quotes
before them still belong to a string of several lines. -/
def closing? (quoting : Quoting) (text : List Char) : Option (List Char × List Char) :=
  if quoting.multiLine then
    match text.takeWhile (· == quoting.quote) with
    | _ :: _ :: more => some (more.take 2, text.drop (2 + (more.take 2).length))
    | _ => none
  else some ([], text)

/-- A string up to its closing quotes. -/
def content? (quoting : Quoting) : List Char → Option (List Char × List Char)
  | [] => none
  | char :: rest =>
      let joinTo (meant : List Char) (read : Option (List Char × List Char)) :=
        read.map fun (content, after) => (meant ++ content, after)
      if char = quoting.quote then
        match quoting.closing? rest with
        | some closed => some closed
        | none => joinTo [char] (quoting.content? rest)
      else if char = '\\' ∧ quoting.quote = '"' then
        match quoting.escaped? rest with
        | some (meant, length) => joinTo meant (quoting.content? (rest.drop length))
        | none => none
      else if char = '\r' ∧ rest.head? = some '\n' ∧ quoting.multiLine then quoting.content? rest
      else if isTextChar char || (char == '\n' && quoting.multiLine) then
        joinTo [char] (quoting.content? rest)
      else none
termination_by text => text.length
decreasing_by
  all_goals
    simp only [List.length_drop, List.length_cons]
    omega

end Quoting

/-- A string on one line, after its opening quote. -/
def line? (quote : Char) (text : List Char) : Option (String × List Char) :=
  (Quoting.content? ⟨quote, false⟩ text).map fun (content, after) => (String.ofList content, after)

/-- A string after its first quote. Three quotes open one of several lines, which does not have the
line end that may stand directly after them. -/
def string? (quote : Char) (text : List Char) : Option (String × List Char) :=
  if text.take 2 = [quote, quote] then
    let text := text.drop 2
    let body := (afterNewline? text).getD text
    (Quoting.content? ⟨quote, true⟩ body).map fun (content, after) =>
      (String.ofList content, after)
  else line? quote text

/-- The segments of a dotted key or a header, outermost first, in the letter case of the file. -/
abbrev Key := List String

/-- One segment of a key, bare or quoted. -/
def segment? : List Char → Option (String × List Char)
  | '"' :: rest => line? '"' rest
  | '\'' :: rest => line? '\'' rest
  | text =>
      let bare := text.takeWhile isKeyChar
      if bare.isEmpty then none else some (String.ofList bare, text.drop bare.length)

/-- A dotted key of at most `limit` segments, with the spaces around it. -/
def key? (limit : Nat) (text : List Char) : Option (Key × List Char) :=
  match limit with
  | 0 => none
  | limit + 1 => do
      let (segment, after) ← segment? (skipSpace text)
      match skipSpace after with
      | '.' :: rest =>
          let (segments, after) ← key? limit rest
          some (segment :: segments, after)
      | rest => some ([segment], rest)

end RhoFrontend.Settings.Toml
