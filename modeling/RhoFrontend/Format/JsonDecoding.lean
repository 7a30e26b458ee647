import RhoFrontend.Json.Reading
import RhoFrontend.ProcessTree.Node

/-!
Process trees from JSON documents. The fields of an object may come in any order, unknown ones are
passed over, and an array may stand for an object if it holds the same fields in the written order.
The kind of a process and the type of a literal are chosen by name, and inside a document also by
number. Nothing is put right on the way: odd names and shapes are read as they stand.
-/

namespace RhoFrontend

namespace Json

def valuesOf (name : String) (fields : List Field) : List Json :=
  (fields.filter fun field => field.name == name).map Field.value

def only? (name : String) (fields : List Field) : Option Json :=
  match valuesOf name fields with
  | [value] => some value
  | _ => none

/-- The values of these fields: each exactly once in an object, or all of them as an array. -/
def record? (names : List String) : Json → Option (List Json)
  | .object fields => names.mapM fun name => only? name fields
  | .array items => if items.length = names.length then some items else none
  | _ => none

def array? : Json → Option (List Json)
  | .array items => some items
  | _ => none

/-- The choice that a string names. -/
def named? {Choice : Type} (name : Choice → String) (choices : List Choice) :
    Json → Option Choice
  | .string text => choices.find? fun choice => name choice == text
  | _ => none

/-- The choice that a string names, or an integer by its position from zero. -/
def chosen? {Choice : Type} (name : Choice → String) (choices : List Choice) :
    Json → Option Choice
  | .integer (.ofNat position) => choices[position]?
  | json => json.named? name choices

/-- The tag of an object, wherever it stands, or of an array, where it comes first. -/
def tag? : Json → Option Json
  | .object fields => only? "tag" fields
  | .array (first :: _) => some first
  | _ => none

end Json

/-- Where a process stands in a document. -/
inductive Place
  | outermost
  | nested
deriving DecidableEq, Repr

namespace NodeKind

/-- The kind of process that a document is tagged with. The outermost process has to name it. -/
def ofJson? (place : Place) (json : Json) : Option NodeKind :=
  json.tag?.bind fun tag =>
    match place with
    | .outermost => tag.named? NodeKind.tag processKinds
    | .nested => tag.chosen? NodeKind.tag processKinds

end NodeKind

private theorem size_of_values_of {name : String} {fields : List Json.Field} {value : Json}
    (member : value ∈ Json.valuesOf name fields) : sizeOf value < sizeOf fields := by
  obtain ⟨field, found, rfl⟩ := List.mem_map.1 member
  have inFields := List.sizeOf_lt_of_mem (List.mem_filter.1 found).1
  have inField : sizeOf field.value < sizeOf field := by
    cases field
    simp +arith
  omega

private theorem size_of_only {name : String} {fields : List Json.Field} {value : Json}
    (found : Json.only? name fields = some value) : sizeOf value < sizeOf fields := by
  unfold Json.only? at found
  split at found
  · next only same =>
      cases found
      have member : value ∈ Json.valuesOf name fields := by simp [same]
      exact size_of_values_of member
  · cases found

private theorem mem_of_map_m {Input Output : Type} {f : Input → Option Output}
    {inputs : List Input} {outputs : List Output} (mapped : inputs.mapM f = some outputs)
    {output : Output} (member : output ∈ outputs) : ∃ input ∈ inputs, f input = some output := by
  induction inputs generalizing outputs with
  | nil =>
      simp at mapped
      simp [mapped] at member
  | cons head rest ih =>
      simp only [List.mapM_cons, Option.bind_eq_bind, Option.bind_eq_some_iff,
        Option.pure_def, Option.some.injEq] at mapped
      obtain ⟨first, firstSome, later, laterSome, rfl⟩ := mapped
      rcases List.mem_cons.1 member with rfl | inLater
      · exact ⟨head, List.mem_cons_self, firstSome⟩
      · obtain ⟨input, inputMember, inputSome⟩ := ih laterSome inLater
        exact ⟨input, List.mem_cons_of_mem _ inputMember, inputSome⟩

/-- A part of a record is smaller than the record, so reading may recurse on parts. -/
theorem size_of_record {names : List String} {json : Json} {values : List Json}
    (found : json.record? names = some values) {value : Json} (member : value ∈ values) :
    sizeOf value < sizeOf json := by
  unfold Json.record? at found
  split at found
  · obtain ⟨name, _, valueFound⟩ := mem_of_map_m found member
    have := size_of_only valueFound
    simp
    omega
  · split at found
    · cases found
      have := List.sizeOf_lt_of_mem member
      simp
      omega
    · cases found
  · cases found

theorem size_of_array {json : Json} {items : List Json} (found : json.array? = some items) :
    sizeOf items < sizeOf json := by
  unfold Json.array? at found
  split at found
  · cases found
    simp
  · cases found

namespace GroundType

/-- The type in a field: its name, also as the only field of an object that says nothing more. -/
def ofField? : Json → Option GroundType
  | .object [⟨typeName, .null⟩] | .object [⟨typeName, .object []⟩] =>
      (Json.string typeName).named? name all
  | json => json.named? name all

def ofItem? (json : Json) : Option GroundType := json.chosen? name all

end GroundType

namespace Ground

def ofValue? : GroundType → Json → Option Ground
  | .int, .integer value => (Integer.ofInt? value).map .int
  | .string, .string value => some (.string value)
  | .bool, .bool value => some (.bool value)
  | _, _ => none

def ofJson? (json : Json) : Option Ground :=
  match json.record? ["tag", "type", "value"] with
  | some [_, type, value] =>
      let type? :=
        match json with
        | .object _ => GroundType.ofField? type
        | _ => GroundType.ofItem? type
      type?.bind fun type => ofValue? type value
  | _ => none

end Ground

namespace Pattern

def ofJson? (json : Json) : Option Pattern :=
  match json.record? ["givenName"] with
  | some [.string name] => some ⟨name⟩
  | _ => none

end Pattern

namespace Declaration

/-- The resource of a declaration, which is absent or `null` where there is none. -/
def uriOfJson? : List Json → Option (Option String)
  | [] | [.null] => some none
  | [.string uri] => some (some uri)
  | _ => none

def ofJson? : Json → Option Declaration
  | .object fields =>
      match Json.only? "givenName" fields, uriOfJson? (Json.valuesOf "uri" fields) with
      | some (.string name), some uri => some ⟨name, uri⟩
      | _, _ => none
  | .array (.string name :: rest) => (uriOfJson? rest).map fun uri => ⟨name, uri⟩
  | _ => none

end Declaration

mutual

/-- The process that a document stands for. -/
def ProcessTree.ofJson? (place : Place) (json : Json) : Option ProcessTree :=
  match NodeKind.ofJson? place json with
  | some .nil => (json.record? ["tag"]).map fun _ => .nil
  | some .ground => (Ground.ofJson? json).map .ground
  | some .send =>
      match _found : json.record? ["tag", "chan", "message"] with
      | some [_, channel, message] =>
          match ProcessTree.ofJson? .nested channel, ProcessTree.ofJson? .nested message with
          | some channel, some message => some (.send channel message)
          | _, _ => none
      | _ => none
  | some .receive =>
      match _found : json.record? ["tag", "actions", "body"] with
      | some [_, actions, body] =>
          match _items : actions.array? with
          | some actions =>
              match Action.listOfJson? actions, ProcessTree.ofJson? .nested body with
              | some actions, some body => some (.receive actions body)
              | _, _ => none
          | none => none
      | _ => none
  | some .par =>
      match _found : json.record? ["tag", "procs"] with
      | some [_, operands] =>
          match _items : operands.array? with
          | some operands => (ProcessTree.listOfJson? operands).map .par
          | none => none
      | _ => none
  | some .restrict =>
      match _found : json.record? ["tag", "vars", "body"] with
      | some [_, declarations, body] =>
          match declarations.array? with
          | some declarations =>
              match declarations.mapM Declaration.ofJson?, ProcessTree.ofJson? .nested body with
              | some declarations, some body => some (.restrict declarations body)
              | _, _ => none
          | none => none
      | _ => none
  | some .bundle =>
      match _found : json.record? ["tag", "proc"] with
      | some [_, body] => (ProcessTree.ofJson? .nested body).map .bundle
      | _ => none
  | _ => none
termination_by sizeOf json
decreasing_by
  all_goals first
    | exact size_of_record _found (by simp)
    | exact Nat.lt_trans (size_of_array _items) (size_of_record _found (by simp))

def Action.ofJson? (json : Json) : Option Action :=
  match _found : json.record? ["pattern", "chan"] with
  | some [pattern, channel] =>
      match Pattern.ofJson? pattern, ProcessTree.ofJson? .nested channel with
      | some pattern, some channel => some ⟨pattern, channel⟩
      | _, _ => none
  | _ => none
termination_by sizeOf json
decreasing_by exact size_of_record _found (by simp)

def Action.listOfJson? : List Json → Option (List Action)
  | [] => some []
  | item :: rest =>
      match Action.ofJson? item, Action.listOfJson? rest with
      | some action, some actions => some (action :: actions)
      | _, _ => none
termination_by items => sizeOf items

def ProcessTree.listOfJson? : List Json → Option (List ProcessTree)
  | [] => some []
  | item :: rest =>
      match ProcessTree.ofJson? .nested item, ProcessTree.listOfJson? rest with
      | some process, some processes => some (process :: processes)
      | _, _ => none
termination_by items => sizeOf items

end

namespace ProcessTree

def ofJsonText? (text : String) : Option ProcessTree :=
  (Json.ofText? text.toList).bind (ProcessTree.ofJson? .outermost)

end ProcessTree

end RhoFrontend
