import RhoFrontend.Json.Token

/-!
The two layouts of a JSON document. They write the same tokens: the compact one writes nothing
between them, the indented one starts a line for every item and field.
-/

namespace RhoFrontend.Json

namespace Layout

def newline (depth : Nat) : List Char := '\n' :: List.replicate (2 * depth) ' '

def isOpening : Token → Bool
  | .openBracket | .openBrace => true
  | _ => false

def isClosing : Token → Bool
  | .closeBracket | .closeBrace => true
  | _ => false

def depthAfter (depth : Nat) (token : Token) : Nat :=
  if isOpening token then depth + 1 else if isClosing token then depth - 1 else depth

/-- What stands between two neighbouring tokens of the indented layout, at the depth after the left
one. Empty containers stay together. -/
def gap (depth : Nat) (left right : Token) : List Char :=
  if isOpening left && isClosing right then []
  else if isClosing right then newline (depth - 1)
  else if isOpening left then newline depth
  else
    match left with
    | .comma => newline depth
    | .colon => [' ']
    | _ => []

def indented (depth : Nat) : List Token → List Char
  | [] => []
  | [last] => last.spelling
  | left :: right :: rest =>
      let inside := depthAfter depth left
      left.spelling ++ gap inside left right ++ indented inside (right :: rest)

end Layout

def compact (json : Json) : List Char := json.tokens.flatMap Token.spelling

def pretty (json : Json) : List Char := Layout.indented 0 json.tokens

end RhoFrontend.Json
