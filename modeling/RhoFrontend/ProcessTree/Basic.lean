import RhoFrontend.Text.Integer

/-!
Process trees. A tree says nothing about where it came from: two sources that differ only in
trivia have equal trees. Any tree can be built here, also one that no source is read as, such as
a parallel composition with one operand.
-/

namespace RhoFrontend

inductive GroundType
  | int
  | string
  | bool
deriving DecidableEq, Repr

namespace GroundType

def name : GroundType → String
  | .int => "int"
  | .string => "string"
  | .bool => "bool"

def all : List GroundType := [.int, .string, .bool]

end GroundType

/-- A literal, usable as data and as a channel. -/
inductive Ground
  | int (value : Int64)
  | string (value : String)
  | bool (value : Bool)
deriving DecidableEq, Repr

namespace Ground

def type : Ground → GroundType
  | .int _ => .int
  | .string _ => .string
  | .bool _ => .bool

def literal : Ground → String
  | .int value => String.ofList (Integer.spelling value)
  | .string value => "\"" ++ value ++ "\""
  | .bool value => if value then "true" else "false"

end Ground

/-- A name declared by a restriction, with the resource it is bound to, if any. -/
structure Declaration where
  name : String
  uri : Option String
deriving DecidableEq, Repr

/-- What a receive binds: so far always one name. -/
structure Pattern where
  name : String
deriving DecidableEq, Repr

namespace Pattern

def boundNames (pattern : Pattern) : List String := [pattern.name]

end Pattern

mutual

inductive ProcessTree
  | nil
  | ground (value : Ground)
  | send (channel message : ProcessTree)
  | receive (actions : List Action) (body : ProcessTree)
  | par (operands : List ProcessTree)
  | restrict (declarations : List Declaration) (body : ProcessTree)
  | bundle (body : ProcessTree)
deriving Repr

/-- One guarded binding of a receive. -/
structure Action where
  pattern : Pattern
  channel : ProcessTree
deriving Repr

end

namespace ProcessTree

/-- Whether the process is a parallel composition, the only kind that `|` takes apart. -/
def isPar : ProcessTree → Bool
  | .par _ => true
  | _ => false

def subprocesses : ProcessTree → List ProcessTree
  | .nil | .ground _ => []
  | .send channel message => [channel, message]
  | .receive actions body => actions.map Action.channel ++ [body]
  | .par operands => operands
  | .restrict _ body => [body]
  | .bundle body => [body]

end ProcessTree

mutual

/-- Nesting depth; a process without subprocesses has depth one. -/
def ProcessTree.depth : ProcessTree → Nat
  | .nil | .ground _ => 1
  | .send channel message => 1 + max channel.depth message.depth
  | .receive actions body => 1 + max (Action.listDepth actions) body.depth
  | .par operands => 1 + ProcessTree.listDepth operands
  | .restrict _ body => 1 + body.depth
  | .bundle body => 1 + body.depth

def Action.listDepth : List Action → Nat
  | [] => 0
  | ⟨_, channel⟩ :: rest => max channel.depth (Action.listDepth rest)

def ProcessTree.listDepth : List ProcessTree → Nat
  | [] => 0
  | process :: rest => max process.depth (ProcessTree.listDepth rest)

end

mutual

def ProcessTree.same : ProcessTree → ProcessTree → Bool
  | .nil, .nil => true
  | .ground left, .ground right => left == right
  | .send channel message, .send otherChannel otherMessage =>
      channel.same otherChannel && message.same otherMessage
  | .receive actions body, .receive otherActions otherBody =>
      Action.listSame actions otherActions && body.same otherBody
  | .par operands, .par otherOperands => ProcessTree.listSame operands otherOperands
  | .restrict declarations body, .restrict otherDeclarations otherBody =>
      declarations == otherDeclarations && body.same otherBody
  | .bundle body, .bundle otherBody => body.same otherBody
  | _, _ => false

def Action.listSame : List Action → List Action → Bool
  | [], [] => true
  | ⟨pattern, channel⟩ :: rest, ⟨otherPattern, otherChannel⟩ :: otherRest =>
      pattern == otherPattern && channel.same otherChannel && Action.listSame rest otherRest
  | _, _ => false

def ProcessTree.listSame : List ProcessTree → List ProcessTree → Bool
  | [], [] => true
  | process :: rest, other :: otherRest => process.same other && ProcessTree.listSame rest otherRest
  | _, _ => false

end

mutual

theorem ProcessTree.same_iff : ∀ left right : ProcessTree, left.same right = true ↔ left = right
  | .nil, right => by cases right <;> simp [ProcessTree.same]
  | .ground _, right => by cases right <;> simp [ProcessTree.same]
  | .send channel message, right => by
      cases right <;> simp [ProcessTree.same, channel.same_iff, message.same_iff]
  | .receive actions body, right => by
      cases right <;> simp [ProcessTree.same, Action.list_same_iff actions, body.same_iff]
  | .par operands, right => by
      cases right <;> simp [ProcessTree.same, ProcessTree.list_same_iff operands]
  | .restrict _ body, right => by cases right <;> simp [ProcessTree.same, body.same_iff]
  | .bundle body, right => by cases right <;> simp [ProcessTree.same, body.same_iff]

theorem Action.list_same_iff :
    ∀ left right : List Action, Action.listSame left right = true ↔ left = right
  | [], right => by cases right <;> simp [Action.listSame]
  | ⟨pattern, channel⟩ :: rest, right => by
      cases right with
      | nil => simp [Action.listSame]
      | cons other otherRest =>
          cases other
          simp [Action.listSame, channel.same_iff, Action.list_same_iff rest, and_assoc]

theorem ProcessTree.list_same_iff :
    ∀ left right : List ProcessTree, ProcessTree.listSame left right = true ↔ left = right
  | [], right => by cases right <;> simp [ProcessTree.listSame]
  | process :: rest, right => by
      cases right <;> simp [ProcessTree.listSame, process.same_iff, ProcessTree.list_same_iff rest]

end

instance : DecidableEq ProcessTree := fun left right =>
  decidable_of_iff (left.same right = true) (ProcessTree.same_iff left right)

instance : DecidableEq Action := fun left right =>
  decidable_of_iff (left.pattern = right.pattern ∧ left.channel = right.channel) (by
    cases left
    cases right
    simp)

end RhoFrontend
