import RhoFrontend.Proofs.Json.Documents
import RhoFrontend.Proofs.Json.Meaning
import RhoFrontend.Proofs.Json.Nesting
import RhoFrontend.Proofs.Json.Writing

/-!
Reading undoes writing. The document of a process denotes it, both layouts write the document, and
the reader takes either text back unless its containers are nested too deep.
-/

namespace RhoFrontend.Json

theorem tagged_node (kind : NodeKind) (fields : List Field) :
    Tagged kind fields (.node kind fields) := by
  refine .object ⟨[], ?_, nofun⟩
  rw [List.append_nil]

/-- Where a tag is not asked for it is one of the fields that say nothing. -/
theorem record_node (kind : NodeKind) {known : List Field}
    (untagged : ∀ field ∈ known, field.name ≠ "tag") : Record known (.node kind known) := by
  have perm : (⟨"tag", .string kind.tag⟩ :: known : List Field).Perm (known ++ [_]) :=
    (List.perm_append_singleton _ known).symm
  refine .object ⟨[⟨"tag", .string kind.tag⟩], perm, ?_⟩
  intro other member field inside
  cases List.mem_singleton.1 member
  exact (untagged field inside).symm

theorem denotes_pattern (pattern : Pattern) : DenotesPattern pattern.toJson pattern :=
  .name (record_node .boundName (by simp))

theorem denotes_declaration (declaration : Declaration) :
    DenotesDeclaration declaration.toJson declaration := by
  obtain ⟨name, _ | uri⟩ := declaration
  · have record : Record [⟨"givenName", .string name⟩] (Declaration.toJson ⟨name, none⟩) :=
      record_node .declaration (by simp)
    cases record with
    | object has => exact .absent has (by simp)
  · exact .bound (record_node .declaration (by simp))

theorem processes_to_json (processes : List ProcessTree) :
    ProcessTree.listToJson processes = processes.map ProcessTree.toJson := by
  induction processes with
  | nil => rfl
  | cons process processes induction => rw [ProcessTree.listToJson, induction, List.map_cons]

/-- The document of an action. -/
def ofAction (action : Action) : Json :=
  .node .action [⟨"pattern", action.pattern.toJson⟩, ⟨"chan", action.channel.toJson⟩]

theorem actions_to_json (actions : List Action) :
    Action.listToJson actions = actions.map ofAction := by
  induction actions with
  | nil => rfl
  | cons action actions induction =>
      cases action
      rw [Action.listToJson, induction, List.map_cons, ofAction]

/-- The document of a process denotes it. -/
theorem denotes_to_json (tree : ProcessTree) : Denotes tree.toJson tree := by
  induction tree using ProcessTree.subprocess_induction with
  | step tree parts =>
      cases tree with
      | nil => exact .nil (tagged_node .nil [])
      | ground literal =>
          refine .ground (tagged_node .ground _) ?_
          cases literal <;> constructor
      | send channel message =>
          exact .send (tagged_node .send _) (parts _ List.mem_cons_self)
            (parts _ (List.mem_cons_of_mem _ List.mem_cons_self))
      | receive actions body =>
          refine .receive (tagged_node .receive _) ?_ (parts _ ProcessTree.body_mem_subprocesses)
          rw [actions_to_json, List.forall₂_map_left_iff, List.forall₂_same]
          rintro ⟨pattern, channel⟩ member
          have guard := parts _ (ProcessTree.channel_mem_subprocesses member)
          exact .guarded (record_node .action (by simp)) (denotes_pattern pattern) guard
      | par operands =>
          refine .par (tagged_node .par _) ?_
          rw [processes_to_json, List.forall₂_map_left_iff, List.forall₂_same]
          exact parts
      | restrict declarations body =>
          refine .restrict (tagged_node .restrict _) ?_ (parts _ List.mem_cons_self)
          rw [List.forall₂_map_left_iff, List.forall₂_same]
          exact fun declaration _ => denotes_declaration declaration
      | bundle body => exact .bundle (tagged_node .bundle _) (parts _ List.mem_cons_self)

theorem writable_node (kind : NodeKind) {fields : List Field}
    (all : ∀ field ∈ fields, Writable field.value) : Writable (.node kind fields) :=
  .object (List.forall_mem_cons.2 ⟨.string kind.tag, all⟩)

theorem writable_ground (literal : Ground) : Writable literal.toJson := by
  cases literal with
  | int value =>
      have low := value.minValue_le_toInt
      have high := value.toInt_le
      have lowest : Int64.minValue.toInt = -2 ^ 63 := by decide
      have highest : Int64.maxValue.toInt = 2 ^ 63 - 1 := by decide
      have limit : NumberLiteral.significandLimit = 2 ^ 64 - 1 := by decide
      exact .integer (by omega)
  | string content => exact .string content
  | bool value => exact .bool value

theorem writable_pattern (pattern : Pattern) : Writable pattern.toJson :=
  writable_node .boundName (List.forall_mem_singleton.2 (.string pattern.name))

theorem writable_declaration (declaration : Declaration) : Writable declaration.toJson := by
  obtain ⟨name, _ | uri⟩ := declaration
  · exact writable_node .declaration (List.forall_mem_singleton.2 (.string name))
  · exact writable_node .declaration
      (List.forall_mem_cons.2 ⟨.string name, List.forall_mem_singleton.2 (.string uri)⟩)

theorem writable_pair (kind : NodeKind) {first second : Field} (left : Writable first.value)
    (right : Writable second.value) : Writable (.node kind [first, second]) :=
  writable_node kind (List.forall_mem_cons.2 ⟨left, List.forall_mem_singleton.2 right⟩)

theorem writable_to_json (tree : ProcessTree) : Writable tree.toJson := by
  induction tree using ProcessTree.subprocess_induction with
  | step tree parts =>
      cases tree with
      | nil => exact writable_node .nil nofun
      | ground literal => exact writable_pair .ground (.string _) (writable_ground literal)
      | send channel message =>
          exact writable_pair .send (parts _ List.mem_cons_self)
            (parts _ (List.mem_cons_of_mem _ List.mem_cons_self))
      | receive actions body =>
          refine writable_pair .receive (.array ?_) (parts _ ProcessTree.body_mem_subprocesses)
          rw [actions_to_json, List.forall_mem_map]
          intro action member
          exact writable_pair .action (writable_pattern action.pattern)
            (parts _ (ProcessTree.channel_mem_subprocesses member))
      | par operands =>
          refine writable_node .par (List.forall_mem_singleton.2 (.array ?_))
          rw [processes_to_json, List.forall_mem_map]
          exact parts
      | restrict declarations body =>
          refine writable_pair .restrict (.array ?_) (parts _ List.mem_cons_self)
          rw [List.forall_mem_map]
          exact fun declaration _ => writable_declaration declaration
      | bundle body =>
          exact writable_node .bundle (List.forall_mem_singleton.2 (parts _ List.mem_cons_self))

end RhoFrontend.Json

namespace RhoFrontend

/-- The process is read from any text of its document that nests few enough containers. -/
theorem ProcessTree.of_json_text_written {process : ProcessTree} {text : String}
    (written : process.toJson.WrittenAs text.toList) :
    ofJsonText? text = if Json.nesting text.toList ≤ 127 then some process else none := by
  have finite := Json.numbers_finite_of_writable (Json.writable_to_json process)
  rw [ofJsonText?, Json.nesting_of_written written]
  split
  · next nested =>
      rw [(Json.of_text_written written).2 ⟨rfl, nested, finite⟩]
      exact Json.of_json_denotes (Json.denotes_to_json process) .outermost
  · next deep =>
      rw [Option.bind_eq_none_iff]
      intro document read
      exact absurd ((Json.of_text_written written).1 read).2.1 deep

/-- For every process both JSON texts nest the same number of containers. If these are at most 127
each text is read as that process again, and otherwise neither is read at all. -/
theorem json_text_reads_back (process : ProcessTree) :
    Json.nesting process.toPrettyJsonText.toList = Json.nesting process.toJsonText.toList ∧
      ProcessTree.ofJsonText? process.toJsonText =
        (if Json.nesting process.toJsonText.toList ≤ 127 then some process else none) ∧
      ProcessTree.ofJsonText? process.toPrettyJsonText =
        (if Json.nesting process.toPrettyJsonText.toList ≤ 127 then some process else none) := by
  have writable := Json.writable_to_json process
  have compact : process.toJson.WrittenAs process.toJsonText.toList := by
    rw [ProcessTree.toJsonText, String.toList_ofList]
    exact Json.written_as_compact writable
  have pretty : process.toJson.WrittenAs process.toPrettyJsonText.toList := by
    rw [ProcessTree.toPrettyJsonText, String.toList_ofList]
    exact Json.written_as_pretty writable
  have same := (Json.nesting_of_written pretty).trans (Json.nesting_of_written compact).symm
  exact ⟨same, ProcessTree.of_json_text_written compact, ProcessTree.of_json_text_written pretty⟩

end RhoFrontend
