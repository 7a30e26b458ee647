import Mathlib.Data.List.Forall2
import RhoFrontend.Format.Json
import RhoFrontend.Proofs.Json.Text

/-!
The documents that stand for process trees, as a relation. It speaks about fields by name and says
nothing about their order in an object, about the other fields of it, or about how one is found.
-/

namespace RhoFrontend.Json

/-- The object has each of these fields exactly once, in any order. Fields with other names say
nothing, and may repeat. -/
def HasFields (fields known : List Field) : Prop :=
  ∃ others, fields.Perm (known ++ others) ∧
    ∀ other ∈ others, ∀ field ∈ known, other.name ≠ field.name

/-- The document gives these fields a value: as an object, or as an array of exactly the values in
the order of the fields. -/
inductive Record (known : List Field) : Json → Prop
  | object {fields : List Field} (has : HasFields fields known) : Record known (.object fields)
  | array : Record known (.array (known.map Field.value))

/-- The document is tagged as a process of this kind and has these other fields. -/
def Tagged (kind : NodeKind) (fields : List Field) (document : Json) : Prop :=
  Record (⟨"tag", .string kind.tag⟩ :: fields) document

/-- A literal has the value of its type. An integer has to be one, and to fit 64 bits. -/
inductive DenotesGround : Json → Ground → Prop
  | int (value : Int64) : DenotesGround (.integer value.toInt) (.int value)
  | string (value : String) : DenotesGround (.string value) (.string value)
  | bool (value : Bool) : DenotesGround (.bool value) (.bool value)

/-- A pattern needs no tag. -/
inductive DenotesPattern : Json → Pattern → Prop
  | name {name : String} {document : Json}
      (record : Record [⟨"givenName", .string name⟩] document) : DenotesPattern document ⟨name⟩

/-- A declaration needs no tag. Without a resource its `uri` is null or is left out, also where an
array stands for the object. -/
inductive DenotesDeclaration : Json → Declaration → Prop
  | absent {name : String} {fields : List Field}
      (has : HasFields fields [⟨"givenName", .string name⟩])
      (noUri : ∀ field ∈ fields, field.name ≠ "uri") :
      DenotesDeclaration (.object fields) ⟨name, none⟩
  | short {name : String} : DenotesDeclaration (.array [.string name]) ⟨name, none⟩
  | null {name : String} {document : Json}
      (record : Record [⟨"givenName", .string name⟩, ⟨"uri", .null⟩] document) :
      DenotesDeclaration document ⟨name, none⟩
  | bound {name uri : String} {document : Json}
      (record : Record [⟨"givenName", .string name⟩, ⟨"uri", .string uri⟩] document) :
      DenotesDeclaration document ⟨name, some uri⟩

mutual

/-- The document stands for the process. -/
inductive Denotes : Json → ProcessTree → Prop
  | nil {document : Json} (tagged : Tagged .nil [] document) : Denotes document .nil
  | ground {document value : Json} {literal : Ground}
      (tagged : Tagged .ground [⟨"type", .string literal.type.name⟩, ⟨"value", value⟩] document)
      (denotes : DenotesGround value literal) : Denotes document (.ground literal)
  | send {document first second : Json} {channel message : ProcessTree}
      (tagged : Tagged .send [⟨"chan", first⟩, ⟨"message", second⟩] document)
      (denotesChannel : Denotes first channel) (denotesMessage : Denotes second message) :
      Denotes document (.send channel message)
  | receive {document last : Json} {items : List Json} {actions : List Action}
      {body : ProcessTree}
      (tagged : Tagged .receive [⟨"actions", .array items⟩, ⟨"body", last⟩] document)
      (denotesActions : List.Forall₂ DenotesAction items actions)
      (denotesBody : Denotes last body) : Denotes document (.receive actions body)
  | par {document : Json} {items : List Json} {operands : List ProcessTree}
      (tagged : Tagged .par [⟨"procs", .array items⟩] document)
      (denotesOperands : List.Forall₂ Denotes items operands) : Denotes document (.par operands)
  | restrict {document last : Json} {items : List Json} {declarations : List Declaration}
      {body : ProcessTree}
      (tagged : Tagged .restrict [⟨"vars", .array items⟩, ⟨"body", last⟩] document)
      (denotesDeclarations : List.Forall₂ DenotesDeclaration items declarations)
      (denotesBody : Denotes last body) : Denotes document (.restrict declarations body)
  | bundle {document last : Json} {body : ProcessTree}
      (tagged : Tagged .bundle [⟨"proc", last⟩] document) (denotesBody : Denotes last body) :
      Denotes document (.bundle body)

/-- The document stands for the action, which needs no tag. -/
inductive DenotesAction : Json → Action → Prop
  | guarded {document first second : Json} {pattern : Pattern} {channel : ProcessTree}
      (record : Record [⟨"pattern", first⟩, ⟨"chan", second⟩] document)
      (denotesPattern : DenotesPattern first pattern) (denotesChannel : Denotes second channel) :
      DenotesAction document ⟨pattern, channel⟩

end

/-- The parts of a document that stand where a process is expected. -/
inductive ProcessAt (document : Json) : Json → Prop
  | outermost : ProcessAt document document
  | channel {parent first second : Json} (above : ProcessAt document parent)
      (tagged : Tagged .send [⟨"chan", first⟩, ⟨"message", second⟩] parent) :
      ProcessAt document first
  | message {parent first second : Json} (above : ProcessAt document parent)
      (tagged : Tagged .send [⟨"chan", first⟩, ⟨"message", second⟩] parent) :
      ProcessAt document second
  | guard {parent last item first second : Json} {items : List Json}
      (above : ProcessAt document parent)
      (tagged : Tagged .receive [⟨"actions", .array items⟩, ⟨"body", last⟩] parent)
      (member : item ∈ items) (record : Record [⟨"pattern", first⟩, ⟨"chan", second⟩] item) :
      ProcessAt document second
  | received {parent first last : Json} (above : ProcessAt document parent)
      (tagged : Tagged .receive [⟨"actions", first⟩, ⟨"body", last⟩] parent) :
      ProcessAt document last
  | operand {parent item : Json} {items : List Json} (above : ProcessAt document parent)
      (tagged : Tagged .par [⟨"procs", .array items⟩] parent) (member : item ∈ items) :
      ProcessAt document item
  | restricted {parent first last : Json} (above : ProcessAt document parent)
      (tagged : Tagged .restrict [⟨"vars", first⟩, ⟨"body", last⟩] parent) :
      ProcessAt document last
  | bundled {parent last : Json} (above : ProcessAt document parent)
      (tagged : Tagged .bundle [⟨"proc", last⟩] parent) : ProcessAt document last

/-- The tag of a process, as an object or as an array. -/
inductive HasTag (tag : Json) : Json → Prop
  | object {fields : List Field} (has : HasFields fields [⟨"tag", tag⟩]) :
      HasTag tag (.object fields)
  | array {rest : List Json} : HasTag tag (.array (tag :: rest))

/-- Wherever a process is expected its tag is a string, and so is the type of a literal. -/
structure StringTagged (document : Json) : Prop where
  tag {process tag : Json} (expected : ProcessAt document process) (has : HasTag tag process) :
    ∃ name, tag = .string name
  type {process type value : Json} (expected : ProcessAt document process)
    (tagged : Tagged .ground [⟨"type", type⟩, ⟨"value", value⟩] process) :
    ∃ name, type = .string name

mutual

/-- The same document up to the order of the fields in each of its objects. -/
inductive Reordered : Json → Json → Prop
  | null : Reordered .null .null
  | bool (value : Bool) : Reordered (.bool value) (.bool value)
  | integer (value : Int) : Reordered (.integer value) (.integer value)
  | decimal (literal : String) : Reordered (.decimal literal) (.decimal literal)
  | string (value : String) : Reordered (.string value) (.string value)
  | array {items others : List Json} (each : List.Forall₂ Reordered items others) :
      Reordered (.array items) (.array others)
  | object {fields moved others : List Field} (perm : fields.Perm moved)
      (each : List.Forall₂ ReorderedField moved others) :
      Reordered (.object fields) (.object others)

inductive ReorderedField : Field → Field → Prop
  | value {name : String} {left right : Json} (inside : Reordered left right) :
      ReorderedField ⟨name, left⟩ ⟨name, right⟩

end

end RhoFrontend.Json
