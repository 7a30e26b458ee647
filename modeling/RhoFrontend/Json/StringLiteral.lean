import RhoFrontend.Text.Hexadecimal

/-!
JSON string literals. Writing escapes the quote, the backslash and the control characters below the
space, and nothing else. Reading knows every escape of the standard; a code unit of a surrogate
pair counts only together with its partner.
-/

namespace RhoFrontend.Json.StringLiteral

def hexDigit (value : Nat) : Char := Nat.digitChar value

/-- The short escape of a character, where there is one that is used for writing. -/
def shortEscape? : Char → Option Char
  | '"' => some '"'
  | '\\' => some '\\'
  | '\x08' => some 'b'
  | '\t' => some 't'
  | '\n' => some 'n'
  | '\x0c' => some 'f'
  | '\r' => some 'r'
  | _ => none

def encodeChar (char : Char) : List Char :=
  match shortEscape? char with
  | some letter => ['\\', letter]
  | none =>
      if char.toNat < 0x20 then
        ['\\', 'u', '0', '0', hexDigit (char.toNat / 16), hexDigit (char.toNat % 16)]
      else [char]

def encode (content : List Char) : List Char := content.flatMap encodeChar

def unit? (text : List Char) : Option Nat := Hexadecimal.valueOfFirst? 4 text

def isHighSurrogate (unit : Nat) : Bool := 0xD800 ≤ unit && unit < 0xDC00

def isLowSurrogate (unit : Nat) : Bool := 0xDC00 ≤ unit && unit < 0xE000

/-- The character of a `\u` escape, from the text after the `u`, and the length of that text. -/
def unicodeEscape? (text : List Char) : Option (Char × Nat) := do
  let first ← unit? text
  if isHighSurrogate first then
    match text.drop 4 with
    | '\\' :: 'u' :: rest =>
        let second ← unit? rest
        if isLowSurrogate second then
          some (Char.ofNat (0x10000 + (first - 0xD800) * 0x400 + (second - 0xDC00)), 10)
        else none
    | _ => none
  else if isLowSurrogate first then none
  else some (Char.ofNat first, 4)

/-- The character of an escape, from the text after the backslash, and the length of that text. -/
def escape? : List Char → Option (Char × Nat)
  | '"' :: _ => some ('"', 1)
  | '\\' :: _ => some ('\\', 1)
  | '/' :: _ => some ('/', 1)
  | 'b' :: _ => some ('\x08', 1)
  | 'f' :: _ => some ('\x0c', 1)
  | 'n' :: _ => some ('\n', 1)
  | 'r' :: _ => some ('\r', 1)
  | 't' :: _ => some ('\t', 1)
  | 'u' :: rest => (unicodeEscape? rest).map fun (char, length) => (char, length + 1)
  | _ => none

/-- What a literal denotes, from the text after its opening quote, and the length of that text up
to and including the closing quote. -/
def decode : List Char → Option (List Char × Nat)
  | [] => none
  | char :: rest =>
      if char = '"' then some ([], 1)
      else if char = '\\' then
        match escape? rest with
        | none => none
        | some (meant, length) =>
            (decode (rest.drop length)).map fun (content, total) =>
              (meant :: content, total + length + 1)
      else if char.toNat < 0x20 then none
      else (decode rest).map fun (content, total) => (char :: content, total + 1)
termination_by text => text.length
decreasing_by
  all_goals
    simp only [List.length_drop, List.length_cons]
    omega

end RhoFrontend.Json.StringLiteral
