import RhoFrontend.Proofs.JsonRoundTrip
import RhoFrontend.Proofs.Json.Reading

/-!
Reading a document and writing it again. Whatever spelling is accepted, each container of the
canonical document has one of its own in the document that was read. So the canonical texts nest no
deeper, and what could be read once can be read again.
-/

namespace RhoFrontend.Json

theorem list_depth_le_iff {items : List Json} {bound : Nat} :
    Json.listDepth items ≤ bound ↔ ∀ item ∈ items, item.depth ≤ bound := by
  induction items with
  | nil => simp [Json.listDepth]
  | cons item items induction =>
      rw [Json.listDepth, Nat.max_le, induction, List.forall_mem_cons]

theorem field_depth_le_iff {fields : List Field} {bound : Nat} :
    Field.listDepth fields ≤ bound ↔ ∀ field ∈ fields, field.value.depth ≤ bound := by
  induction fields with
  | nil => simp [Field.listDepth]
  | cons field fields induction =>
      obtain ⟨name, value⟩ := field
      rw [Field.listDepth, Nat.max_le, induction, List.forall_mem_cons]

theorem depth_lt_of_item {items : List Json} {item : Json} (member : item ∈ items) :
    item.depth < (Json.array items).depth := by
  have inside := list_depth_le_iff.1 (Nat.le_refl (Json.listDepth items)) item member
  rw [Json.depth]
  omega

theorem depth_lt_of_field {fields : List Field} {field : Field} (member : field ∈ fields) :
    field.value.depth < (Json.object fields).depth := by
  have inside := field_depth_le_iff.1 (Nat.le_refl (Field.listDepth fields)) field member
  rw [Json.depth]
  omega

section Records

variable {names : List String} {document : Json} {values : List Json}

theorem depth_pos_of_record (record : document.record? names = some values) :
    0 < document.depth := by
  cases document with
  | array | object =>
      rw [Json.depth]
      omega
  | _ => cases record

/-- The values that are found in a record stand inside it. -/
theorem depth_lt_of_record (record : document.record? names = some values) {value : Json}
    (member : value ∈ values) : value.depth < document.depth := by
  unfold record? at record
  split at record
  · obtain ⟨name, -, found⟩ := exists_mem_of_forall₂ (map_m_eq_some_iff.1 record).flip member
    have alone := only_eq_some_iff.1 found
    have inside : (⟨name, value⟩ : Field) ∈ [⟨name, value⟩] := List.mem_singleton_self _
    rw [← alone] at inside
    exact depth_lt_of_field (List.mem_filter.1 inside).1
  · split at record
    · cases record
      exact depth_lt_of_item member
    · cases record
  · cases record

end Records

/-- The object of a node is one container around the values of its fields. -/
theorem depth_of_node (kind : NodeKind) (fields : List Field) :
    (Json.node kind fields).depth = 1 + Field.listDepth fields := by
  rw [Json.node, Json.depth, Field.listDepth, Json.depth, Nat.zero_max]

theorem depth_node_le_iff {kind : NodeKind} {fields : List Field} {bound : Nat} :
    (Json.node kind fields).depth ≤ bound ↔
      0 < bound ∧ ∀ field ∈ fields, field.value.depth < bound := by
  rw [depth_of_node]
  constructor
  · intro fits
    refine ⟨by omega, fun field member => ?_⟩
    have inside := field_depth_le_iff.1 (Nat.le_refl (Field.listDepth fields)) field member
    omega
  · rintro ⟨positive, inside⟩
    have each : Field.listDepth fields ≤ bound - 1 :=
      field_depth_le_iff.2 fun field member => Nat.le_sub_one_of_lt (inside field member)
    omega

theorem depth_array_le {items others : List Json}
    (each : List.Forall₂ (fun item other => other.depth ≤ item.depth) items others) :
    (Json.array others).depth ≤ (Json.array items).depth := by
  rw [Json.depth, Json.depth]
  apply Nat.add_le_add_left
  induction each with
  | nil => exact Nat.le_refl 0
  | cons first _ induction =>
      rw [Json.listDepth, Json.listDepth]
      omega

theorem pattern_depth_le {document : Json} {pattern : Pattern}
    (read : Pattern.ofJson? document = some pattern) : pattern.toJson.depth ≤ document.depth := by
  unfold Pattern.ofJson? at read
  split at read
  · next record =>
      refine depth_node_le_iff.2 ⟨depth_pos_of_record record, List.forall_mem_singleton.2 ?_⟩
      exact depth_pos_of_record record
  · cases read

theorem declaration_depth_le {document : Json} {declaration : Declaration}
    (read : Declaration.ofJson? document = some declaration) :
    declaration.toJson.depth ≤ document.depth := by
  have positive : 0 < document.depth := by
    cases document with
    | array | object =>
        rw [Json.depth]
        omega
    | _ => cases read
  refine depth_node_le_iff.2 ⟨positive, List.forall_mem_cons.2 ⟨positive, ?_⟩⟩
  obtain ⟨name, _ | uri⟩ := declaration
  · exact List.forall_mem_nil _
  · exact List.forall_mem_singleton.2 positive

theorem depth_of_finds {place : Place} {kind : NodeKind} {names : List String} {document : Json}
    {values : List Json} (finds : Finds place kind names document values) :
    0 < document.depth ∧ ∀ value ∈ values, value.depth < document.depth := by
  obtain ⟨-, tag, record⟩ := finds
  refine ⟨depth_pos_of_record record, fun value member => ?_⟩
  exact depth_lt_of_record record (List.mem_cons_of_mem tag member)

theorem depth_of_pair {place : Place} {kind : NodeKind} {names : List String}
    {document first second : Json} (finds : Finds place kind names document [first, second]) :
    first.depth < document.depth ∧ second.depth < document.depth := by
  have inside := (depth_of_finds finds).2
  exact ⟨inside first List.mem_cons_self,
    inside second (List.mem_cons_of_mem first List.mem_cons_self)⟩

theorem depth_single_le {kind : NodeKind} {name : String} {value : Json} {bound : Nat}
    (inside : value.depth < bound) : (Json.node kind [⟨name, value⟩]).depth ≤ bound :=
  depth_node_le_iff.2 ⟨Nat.zero_lt_of_lt inside, List.forall_mem_singleton.2 inside⟩

theorem depth_pair_le {kind : NodeKind} {firstName secondName : String} {first second : Json}
    {bound : Nat} (firstInside : first.depth < bound) (secondInside : second.depth < bound) :
    (Json.node kind [⟨firstName, first⟩, ⟨secondName, second⟩]).depth ≤ bound :=
  depth_node_le_iff.2 ⟨Nat.zero_lt_of_lt firstInside,
    List.forall_mem_cons.2 ⟨firstInside, List.forall_mem_singleton.2 secondInside⟩⟩

/-- A process is read from a container, and its parts from containers inside that one. So where the
parts have room for their own documents, the process has room for its own. -/
theorem depth_le_of_json {place : Place} {document : Json} {tree : ProcessTree}
    (read : ProcessTree.ofJson? place document = some tree) :
    tree.toJson.depth ≤ document.depth := by
  induction tree using ProcessTree.subprocess_induction generalizing document place with
  | step tree parts =>
      cases reads_of_json read with
      | nil finds =>
          exact depth_node_le_iff.2 ⟨(depth_of_finds finds).1, List.forall_mem_nil _⟩
      | @ground literal _ reads =>
          obtain ⟨tag, type, value, record, -⟩ := ground_eq_some_iff.1 reads
          have positive := depth_pos_of_record record
          have flat : literal.toJson.depth < document.depth := by cases literal <;> exact positive
          exact depth_pair_le positive flat
      | send finds readsChannel readsMessage =>
          obtain ⟨firstInside, secondInside⟩ := depth_of_pair finds
          have channel := parts _ List.mem_cons_self readsChannel
          have message := parts _ (List.mem_cons_of_mem _ List.mem_cons_self) readsMessage
          exact depth_pair_le (Nat.lt_of_le_of_lt channel firstInside)
            (Nat.lt_of_le_of_lt message secondInside)
      | receive finds readsActions readsBody =>
          obtain ⟨itemsInside, lastInside⟩ := depth_of_pair finds
          have body := parts _ ProcessTree.body_mem_subprocesses readsBody
          refine depth_pair_le (Nat.lt_of_le_of_lt ?_ itemsInside)
            (Nat.lt_of_le_of_lt body lastInside)
          rw [actions_to_json]
          apply depth_array_le
          rw [List.forall₂_map_right_iff]
          refine forall₂_imp_of_mem readsActions ?_
          rintro item - ⟨pattern, channel⟩ member ⟨first, second, record, readsPattern, readsGuard⟩
          have guard := parts _ (ProcessTree.channel_mem_subprocesses member) readsGuard
          have bound := pattern_depth_le readsPattern
          exact depth_pair_le
            (Nat.lt_of_le_of_lt bound (depth_lt_of_record record List.mem_cons_self))
            (Nat.lt_of_le_of_lt guard
              (depth_lt_of_record record (List.mem_cons_of_mem first List.mem_cons_self)))
      | par finds readsOperands =>
          have itemsInside := List.forall_mem_singleton.1 (depth_of_finds finds).2
          refine depth_single_le (Nat.lt_of_le_of_lt ?_ itemsInside)
          rw [processes_to_json]
          apply depth_array_le
          rw [List.forall₂_map_right_iff]
          exact forall₂_imp_of_mem readsOperands fun item _ operand member => parts operand member
      | restrict finds readsDeclarations readsBody =>
          obtain ⟨itemsInside, lastInside⟩ := depth_of_pair finds
          have body := parts _ List.mem_cons_self readsBody
          refine depth_pair_le (Nat.lt_of_le_of_lt ?_ itemsInside)
            (Nat.lt_of_le_of_lt body lastInside)
          apply depth_array_le
          rw [List.forall₂_map_right_iff]
          exact readsDeclarations.imp fun item declaration => declaration_depth_le
      | bundle finds readsBody =>
          have body := parts _ List.mem_cons_self readsBody
          have lastInside := List.forall_mem_singleton.1 (depth_of_finds finds).2
          exact depth_single_le (Nat.lt_of_le_of_lt body lastInside)

end RhoFrontend.Json

namespace RhoFrontend

namespace ProcessTree

theorem json_text_written (process : ProcessTree) :
    process.toJson.WrittenAs process.toJsonText.toList := by
  rw [toJsonText, String.toList_ofList]
  exact Json.written_as_compact (Json.writable_to_json process)

theorem pretty_json_text_written (process : ProcessTree) :
    process.toJson.WrittenAs process.toPrettyJsonText.toList := by
  rw [toPrettyJsonText, String.toList_ofList]
  exact Json.written_as_pretty (Json.writable_to_json process)

end ProcessTree

/-- A text that is read as a process may be replaced by either text of that process: it nests no
deeper and is read as the same process. So writing what has been read from the canonical text gives
the canonical text. -/
theorem json_rewriting_reads_back {text : String} {process : ProcessTree}
    (read : ProcessTree.ofJsonText? text = some process) :
    Json.nesting process.toJsonText.toList ≤ Json.nesting text.toList ∧
      Json.nesting process.toPrettyJsonText.toList ≤ Json.nesting text.toList ∧
      ProcessTree.ofJsonText? process.toJsonText = some process ∧
      ProcessTree.ofJsonText? process.toPrettyJsonText = some process ∧
      (ProcessTree.ofJsonText? process.toJsonText).map ProcessTree.toJsonText =
        some process.toJsonText := by
  obtain ⟨document, found, decoded⟩ := Option.bind_eq_some_iff.1 read
  obtain ⟨strict, shallow, -⟩ := Json.of_text_eq_some_iff.1 found
  have depth := Json.depth_le_of_json decoded
  have compact := process.json_text_written
  have pretty := process.pretty_json_text_written
  have compactNesting := Json.nesting_of_written compact
  have prettyNesting := Json.nesting_of_written pretty
  have textNesting := Json.nesting_of_written strict
  have compactReads : ProcessTree.ofJsonText? process.toJsonText = some process := by
    rw [ProcessTree.of_json_text_written compact, if_pos (by omega)]
  have prettyReads : ProcessTree.ofJsonText? process.toPrettyJsonText = some process := by
    rw [ProcessTree.of_json_text_written pretty, if_pos (by omega)]
  refine ⟨by omega, by omega, compactReads, prettyReads, ?_⟩
  rw [compactReads, Option.map_some]

/-- A restriction with arrays for some of its objects, fields in another order, a field that says
nothing, an escape and a space. -/
def looseRestriction : String :=
  "\x7b\"body\":\x7b\"proc\":[\"ground\",\"string\",\"\\u0041\"],\"z\":[7],\"tag\":\"bundle\"\x7d, " ++
    "\"vars\":[[\"x\",null]],\"tag\":\"new\"\x7d"

theorem json_rewriting_reads_back_loose_restriction :
    ProcessTree.ofJsonText? looseRestriction =
        some (.restrict [⟨"x", none⟩] (.bundle (.ground (.string "A")))) ∧
      ProcessTree.toJsonText (.restrict [⟨"x", none⟩] (.bundle (.ground (.string "A")))) =
        "\x7b\"tag\":\"new\",\"vars\":[\x7b\"tag\":\"variable\",\"givenName\":\"x\"\x7d]," ++
          "\"body\":\x7b\"tag\":\"bundle\",\"proc\":\x7b\"tag\":\"ground\",\"type\":\"string\"," ++
          "\"value\":\"A\"\x7d\x7d\x7d" ∧
      Json.nesting (ProcessTree.toJsonText
          (.restrict [⟨"x", none⟩] (.bundle (.ground (.string "A"))))).toList ≤
        Json.nesting looseRestriction.toList ∧
      ProcessTree.ofJsonText? (ProcessTree.toJsonText
          (.restrict [⟨"x", none⟩] (.bundle (.ground (.string "A"))))) =
        some (.restrict [⟨"x", none⟩] (.bundle (.ground (.string "A")))) := by
  have read : ProcessTree.ofJsonText? looseRestriction =
      some (.restrict [⟨"x", none⟩] (.bundle (.ground (.string "A")))) := by decide +kernel
  obtain ⟨nesting, -, readsBack, -⟩ := json_rewriting_reads_back read
  exact ⟨read, by decide +kernel, nesting, readsBack⟩

end RhoFrontend
