import RhoFrontend.Proofs.Json.Unambiguous
import RhoFrontend.Proofs.JsonRewriting
import RhoFrontend.Proofs.Traversal

/-!
The objects of a written tree. Both layouts have one object for every node of the tree, in the order
of the walk through it, and each object says first which kind of node it is for.
-/

namespace RhoFrontend

mutual

/-- The objects of a document, each as its fields, in the order in which a text opens them. -/
def Json.objects : Json → List (List Json.Field)
  | .null | .bool _ | .integer _ | .decimal _ | .string _ => []
  | .array items => Json.listObjects items
  | .object fields => fields :: Json.Field.listObjects fields

def Json.listObjects : List Json → List (List Json.Field)
  | [] => []
  | item :: rest => item.objects ++ Json.listObjects rest

def Json.Field.listObjects : List Json.Field → List (List Json.Field)
  | [] => []
  | ⟨_, value⟩ :: rest => value.objects ++ Json.Field.listObjects rest

end

namespace Json

/-- The first field is the tag of the node's kind, and it is the only tag. -/
def TaggedFor (fields : List Field) (node : Node) : Prop :=
  ∃ others, fields = ⟨"tag", .string node.kind.tag⟩ :: others ∧
    ∀ field ∈ others, field.name ≠ "tag"

/-- The objects of a document are those of some nodes and everything under them. -/
def Follows (document : Json) (nodes : List Node) : Prop :=
  List.Forall₂ TaggedFor document.objects (nodes.flatMap Node.listing)

theorem follows_nothing {document : Json} (none : document.objects = []) : Follows document [] := by
  rw [Follows, none]
  exact .nil

theorem follows_array {items : List Json} {nodes : List Node}
    (each : List.Forall₂ (fun item node => Follows item [node]) items nodes) :
    Follows (.array items) nodes := by
  rw [Follows, objects]
  induction each with
  | nil => exact .nil
  | @cons item node items nodes first _ induction =>
      rw [Follows, List.flatMap_singleton] at first
      rw [listObjects, List.flatMap_cons]
      exact List.rel_append first induction

/-- The objects in the fields of a node's object are those of its children, some of them in each
field. -/
theorem follows_node {kind : NodeKind} {node : Node} {fields : List Field}
    {groups : List (List Node)} (same : node.kind = kind)
    (untagged : ∀ field ∈ fields, field.name ≠ "tag") (children : node.children = groups.flatten)
    (each : List.Forall₂ (fun field nodes => Follows field.value nodes) fields groups) :
    Follows (.node kind fields) [node] := by
  have inside : List.Forall₂ TaggedFor (Field.listObjects fields)
      (groups.flatten.flatMap Node.listing) := by
    clear untagged children
    induction each with
    | nil => exact .nil
    | @cons field nodes fields groups first _ induction =>
        obtain ⟨name, value⟩ := field
        rw [Field.listObjects, List.flatten_cons, List.flatMap_append]
        exact List.rel_append first induction
  have head : TaggedFor (⟨"tag", .string kind.tag⟩ :: fields) node :=
    ⟨fields, by rw [same], untagged⟩
  rw [Follows, List.flatMap_singleton, Node.listing_eq, children, Json.node, objects,
    Field.listObjects, objects, List.nil_append]
  exact .cons head inside

theorem follows_pattern (pattern : Pattern) : Follows pattern.toJson [.ofPattern pattern] :=
  @follows_node _ _ _ [[]] rfl (by simp) rfl (.cons (follows_nothing rfl) .nil)

theorem follows_declaration (declaration : Declaration) :
    Follows declaration.toJson [.ofDeclaration declaration] := by
  obtain ⟨name, _ | uri⟩ := declaration
  · exact @follows_node _ _ _ [[]] rfl (by simp) rfl (.cons (follows_nothing rfl) .nil)
  · exact @follows_node _ _ _ [[], []] rfl (by simp) rfl
      (.cons (follows_nothing rfl) (.cons (follows_nothing rfl) .nil))

theorem follows_ground (literal : Ground) : Follows literal.toJson [] := by
  cases literal <;> exact follows_nothing rfl

/-- The document of a process has an object for each node under the process. -/
theorem follows_to_json (tree : ProcessTree) : Follows tree.toJson [.ofProcess tree] := by
  induction tree using ProcessTree.subprocess_induction with
  | step tree parts =>
      cases tree with
      | nil => exact @follows_node _ _ _ [] rfl (by simp) rfl .nil
      | ground literal =>
          exact @follows_node _ _ _ [[], []] rfl (by simp) rfl
            (.cons (follows_nothing rfl) (.cons (follows_ground literal) .nil))
      | send channel message =>
          have first := parts _ List.mem_cons_self
          have second := parts _ (List.mem_cons_of_mem _ List.mem_cons_self)
          exact follows_node rfl (by simp) rfl (.cons first (.cons second .nil))
      | receive actions body =>
          have bindings : Follows (.array (Action.listToJson actions))
              (actions.map Node.ofAction) := by
            apply follows_array
            rw [actions_to_json, List.forall₂_map_left_iff, List.forall₂_map_right_iff,
              List.forall₂_same]
            intro action member
            have guard := parts _ (ProcessTree.channel_mem_subprocesses member)
            exact follows_node rfl (by simp) rfl
              (.cons (follows_pattern action.pattern) (.cons guard .nil))
          have inner := parts _ ProcessTree.body_mem_subprocesses
          exact follows_node rfl (by simp) (by simp [Node.children])
            (.cons bindings (.cons inner .nil))
      | par operands =>
          have chain : Follows (.array (ProcessTree.listToJson operands))
              (operands.map Node.ofProcess) := by
            apply follows_array
            rw [processes_to_json, List.forall₂_map_left_iff, List.forall₂_map_right_iff,
              List.forall₂_same]
            exact parts
          exact follows_node rfl (by simp) (by simp [Node.children]) (.cons chain .nil)
      | restrict declarations body =>
          have names : Follows (.array (declarations.map Declaration.toJson))
              (declarations.map Node.ofDeclaration) := by
            apply follows_array
            rw [List.forall₂_map_left_iff, List.forall₂_map_right_iff, List.forall₂_same]
            exact fun declaration _ => follows_declaration declaration
          have inner := parts _ List.mem_cons_self
          exact follows_node rfl (by simp) (by simp [Node.children])
            (.cons names (.cons inner .nil))
      | bundle body =>
          exact follows_node rfl (by simp) rfl (.cons (parts _ List.mem_cons_self) .nil)

end Json

/-- Both JSON texts of a process hold one and the same document and no other. Its objects, in the
order of the text, are one for each node that the walk from the process visits, in the order of the
walk: the first field of each is the tag of the node's kind, and no other field is a tag. -/
theorem json_objects_follow_walk (process : ProcessTree) :
    ∃ document : Json,
      (∀ other : Json, other.WrittenAs process.toJsonText.toList ↔ other = document) ∧
      (∀ other : Json, other.WrittenAs process.toPrettyJsonText.toList ↔ other = document) ∧
      List.Forall₂ Json.TaggedFor document.objects (Node.ofProcess process).listing := by
  have compact := process.json_text_written
  have pretty := process.pretty_json_text_written
  have finite := Json.numbers_finite_of_writable (Json.writable_to_json process)
  have follows := Json.follows_to_json process
  rw [Json.Follows, List.flatMap_singleton] at follows
  refine ⟨process.toJson, fun other => ⟨fun written => ?_, ?_⟩,
    fun other => ⟨fun written => ?_, ?_⟩, follows⟩
  · exact Json.document_of_written compact finite written
  · rintro rfl
    exact compact
  · exact Json.document_of_written pretty finite written
  · rintro rfl
    exact pretty

end RhoFrontend
