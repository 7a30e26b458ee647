import RhoFrontend.Json.Token

/-!
A JSON document read token by token. What is read so far is kept as the stack of containers that
are still open; their items and fields are kept latest first.
-/

namespace RhoFrontend.Json.Reading

/-- An array or object around the value being read. An object knows the name of that value. -/
inductive Container
  | array (earlier : List Json)
  | object (earlier : List Field) (name : String)

/-- Where the reading stands in the innermost container. The object whose next name is being read
is not on the stack. -/
inductive Place
  | value
  | firstItem
  | firstName
  | name (earlier : List Field)
  | colon (earlier : List Field) (name : String)
  | afterValue (value : Json)

structure State where
  containers : List Container
  place : Place

/-- The number of containers that may be open at once. -/
def depthLimit : Nat := 127

namespace State

def start : State := ⟨[], .value⟩

def startValue (state : State) : Token → Option State
  | .null => some ⟨state.containers, .afterValue .null⟩
  | .bool value => some ⟨state.containers, .afterValue (.bool value)⟩
  | .integer value => some ⟨state.containers, .afterValue (.integer value)⟩
  | .decimal literal => some ⟨state.containers, .afterValue (.decimal literal)⟩
  | .string content => some ⟨state.containers, .afterValue (.string content)⟩
  | .openBracket =>
      if state.containers.length < depthLimit then
        some ⟨.array [] :: state.containers, .firstItem⟩
      else none
  | .openBrace =>
      if state.containers.length < depthLimit then some ⟨state.containers, .firstName⟩ else none
  | _ => none

/-- After a value its container goes on or ends. -/
def continueContainer (state : State) (value : Json) (token : Token) : Option State :=
  match state.containers, token with
  | .array earlier :: outer, .comma => some ⟨.array (value :: earlier) :: outer, .value⟩
  | .array earlier :: outer, .closeBracket =>
      some ⟨outer, .afterValue (.array (value :: earlier).reverse)⟩
  | .object earlier name :: outer, .comma => some ⟨outer, .name (⟨name, value⟩ :: earlier)⟩
  | .object earlier name :: outer, .closeBrace =>
      some ⟨outer, .afterValue (.object (⟨name, value⟩ :: earlier).reverse)⟩
  | _, _ => none

def step (state : State) (token : Token) : Option State :=
  match state.place, token with
  | .value, token => state.startValue token
  | .firstItem, .closeBracket => some ⟨state.containers.tail, .afterValue (.array [])⟩
  | .firstItem, token => state.startValue token
  | .firstName, .closeBrace => some ⟨state.containers, .afterValue (.object [])⟩
  | .firstName, .string name => some ⟨state.containers, .colon [] name⟩
  | .name earlier, .string name => some ⟨state.containers, .colon earlier name⟩
  | .colon earlier name, .colon => some ⟨.object earlier name :: state.containers, .value⟩
  | .afterValue value, token => state.continueContainer value token
  | _, _ => none

def finish? (state : State) : Option Json :=
  match state.containers, state.place with
  | [], .afterValue value => some value
  | _, _ => none

end State

def readFrom (state : State) : List Token → Option Json
  | [] => state.finish?
  | token :: rest =>
      match state.step token with
      | some next => readFrom next rest
      | none => none

end RhoFrontend.Json.Reading

namespace RhoFrontend.Json

/-- The document that a text holds, if it is strict JSON within the reader's limits. -/
def ofText? (text : List Char) : Option Json :=
  (Token.ofText? text).bind (Reading.readFrom .start)

end RhoFrontend.Json
