/-!
JSON documents as they are written: fields keep their order and may repeat, and a number that is
not an integer keeps its text.
-/

namespace RhoFrontend

mutual

inductive Json
  | null
  | bool (value : Bool)
  | integer (value : Int)
  | decimal (literal : String)
  | string (value : String)
  | array (items : List Json)
  | object (fields : List Json.Field)
deriving Repr

structure Json.Field where
  name : String
  value : Json
deriving Repr

end

mutual

/-- The largest number of arrays and objects around one another. -/
def Json.depth : Json → Nat
  | .null | .bool _ | .integer _ | .decimal _ | .string _ => 0
  | .array items => 1 + Json.listDepth items
  | .object fields => 1 + Json.Field.listDepth fields

def Json.listDepth : List Json → Nat
  | [] => 0
  | item :: rest => max item.depth (Json.listDepth rest)

def Json.Field.listDepth : List Json.Field → Nat
  | [] => 0
  | ⟨_, value⟩ :: rest => max value.depth (Json.Field.listDepth rest)

end

end RhoFrontend
