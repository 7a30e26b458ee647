import RhoFrontend.Json.Layout
import RhoFrontend.ProcessTree.Node

/-!
Process trees as JSON documents. Every node is an object whose first field is the tag of its kind.
-/

namespace RhoFrontend

namespace Json

/-- The object of a node: the tag of its kind, then its fields. -/
def node (kind : NodeKind) (fields : List Field) : Json :=
  .object (⟨"tag", .string kind.tag⟩ :: fields)

end Json

namespace Ground

def toJson : Ground → Json
  | .int value => .integer value.toInt
  | .string value => .string value
  | .bool value => .bool value

end Ground

namespace Pattern

def toJson (pattern : Pattern) : Json :=
  .node .boundName [⟨"givenName", .string pattern.name⟩]

end Pattern

namespace Declaration

/-- A name that is bound to nothing has no `uri` field. -/
def toJson (declaration : Declaration) : Json :=
  .node .declaration (⟨"givenName", .string declaration.name⟩ ::
    match declaration.uri with
    | some uri => [⟨"uri", .string uri⟩]
    | none => [])

end Declaration

mutual

def ProcessTree.toJson : ProcessTree → Json
  | .nil => .node .nil []
  | .ground value =>
      .node .ground [⟨"type", .string value.type.name⟩, ⟨"value", value.toJson⟩]
  | .send channel message =>
      .node .send [⟨"chan", channel.toJson⟩, ⟨"message", message.toJson⟩]
  | .receive actions body =>
      .node .receive [⟨"actions", .array (Action.listToJson actions)⟩, ⟨"body", body.toJson⟩]
  | .par operands => .node .par [⟨"procs", .array (ProcessTree.listToJson operands)⟩]
  | .restrict declarations body =>
      .node .restrict
        [⟨"vars", .array (declarations.map Declaration.toJson)⟩, ⟨"body", body.toJson⟩]
  | .bundle body => .node .bundle [⟨"proc", body.toJson⟩]

def Action.listToJson : List Action → List Json
  | [] => []
  | ⟨pattern, channel⟩ :: rest =>
      .node .action [⟨"pattern", pattern.toJson⟩, ⟨"chan", channel.toJson⟩] ::
        Action.listToJson rest

def ProcessTree.listToJson : List ProcessTree → List Json
  | [] => []
  | process :: rest => process.toJson :: ProcessTree.listToJson rest

end

namespace ProcessTree

def toJsonText (process : ProcessTree) : String := String.ofList process.toJson.compact

def toPrettyJsonText (process : ProcessTree) : String := String.ofList process.toJson.pretty

end ProcessTree

end RhoFrontend
