import RhoFrontend.Proofs.Json.Records

/-!
What the decoder finds in a document, kind by kind, and that it finds a process exactly in the
documents that denote one.
-/

namespace RhoFrontend

theorem ProcessTree.channel_mem_subprocesses {actions : List Action} {action : Action}
    {body : ProcessTree} (member : action ∈ actions) :
    action.channel ∈ (ProcessTree.receive actions body).subprocesses :=
  List.mem_append_left [body] (List.mem_map_of_mem member)

theorem ProcessTree.body_mem_subprocesses {actions : List Action} {body : ProcessTree} :
    body ∈ (ProcessTree.receive actions body).subprocesses :=
  List.mem_append_right (actions.map Action.channel) (List.mem_singleton_self body)

/-- What holds of a process whenever it holds of its subprocesses holds of every process. -/
theorem ProcessTree.subprocess_induction {holds : ProcessTree → Prop}
    (step : ∀ tree : ProcessTree, (∀ part ∈ tree.subprocesses, holds part) → holds tree)
    (tree : ProcessTree) : holds tree := by
  apply step
  intro part member
  have smaller : sizeOf part < sizeOf tree := by
    cases tree with
    | nil | ground => cases member
    | send channel message =>
        simp only [subprocesses, List.mem_cons, List.not_mem_nil, or_false] at member
        rcases member with rfl | rfl <;> simp +arith
    | receive actions body =>
        rcases List.mem_append.1 member with inside | last
        · obtain ⟨action, among, rfl⟩ := List.mem_map.1 inside
          have bound := List.sizeOf_lt_of_mem among
          cases action
          simp only [Action.mk.sizeOf_spec] at bound
          simp only [receive.sizeOf_spec]
          omega
        · cases List.mem_singleton.1 last
          simp +arith
    | par operands =>
        have bound := List.sizeOf_lt_of_mem member
        simp only [subprocesses] at bound
        simp only [par.sizeOf_spec]
        omega
    | restrict declarations body =>
        cases List.mem_singleton.1 member
        simp +arith
    | bundle body =>
        cases List.mem_singleton.1 member
        simp +arith
  exact ProcessTree.subprocess_induction step part
termination_by sizeOf tree

namespace Json

theorem forall₂_imp_of_mem {Left Right : Type} {before after : Left → Right → Prop}
    {lefts : List Left} {rights : List Right} (related : List.Forall₂ before lefts rights)
    (imp : ∀ left ∈ lefts, ∀ right ∈ rights, before left right → after left right) :
    List.Forall₂ after lefts rights := by
  induction related with
  | nil => exact .nil
  | cons first _ induction =>
      have here := imp _ List.mem_cons_self _ List.mem_cons_self first
      refine .cons here (induction fun left inLefts right inRights => ?_)
      exact imp left (List.mem_cons_of_mem _ inLefts) right (List.mem_cons_of_mem _ inRights)

theorem exists_mem_of_forall₂ {Left Right : Type} {related : Left → Right → Prop}
    {lefts : List Left} {rights : List Right} (each : List.Forall₂ related lefts rights)
    {left : Left} (member : left ∈ lefts) : ∃ right ∈ rights, related left right := by
  induction each with
  | nil => cases member
  | cons first _ induction =>
      rcases List.mem_cons.1 member with rfl | later
      · exact ⟨_, List.mem_cons_self, first⟩
      · obtain ⟨right, inRights, same⟩ := induction later
        exact ⟨right, List.mem_cons_of_mem _ inRights, same⟩

theorem map_m_eq_some_iff {Left Right : Type} {f : Left → Option Right} {lefts : List Left}
    {rights : List Right} :
    lefts.mapM f = some rights ↔
      List.Forall₂ (fun left right => f left = some right) lefts rights := by
  induction lefts generalizing rights with
  | nil => simp [eq_comm]
  | cons left lefts induction =>
      simp only [List.mapM_cons, bind, Option.bind_eq_some_iff, pure, Option.some.injEq, induction,
        List.forall₂_cons_left_iff]
      constructor
      · rintro ⟨right, first, rights, others, rfl⟩
        exact ⟨right, rights, first, others, rfl⟩
      · rintro ⟨right, rights, first, others, rfl⟩
        exact ⟨right, first, rights, others, rfl⟩

/-- The items of a list of actions are decoded one by one, and so are those of a list of
processes. -/
theorem actions_eq_map_m (items : List Json) :
    Action.listOfJson? items = items.mapM Action.ofJson? := by
  induction items with
  | nil => rw [Action.listOfJson?, List.mapM_nil, Option.pure_def]
  | cons item items induction =>
      rw [Action.listOfJson?, induction, List.mapM_cons]
      cases Action.ofJson? item <;> cases items.mapM Action.ofJson? <;> rfl

theorem processes_eq_map_m (items : List Json) :
    ProcessTree.listOfJson? items = items.mapM (ProcessTree.ofJson? .nested) := by
  induction items with
  | nil => rw [ProcessTree.listOfJson?, List.mapM_nil, Option.pure_def]
  | cons item items induction =>
      rw [ProcessTree.listOfJson?, induction, List.mapM_cons]
      cases ProcessTree.ofJson? .nested item <;>
        cases items.mapM (ProcessTree.ofJson? .nested) <;> rfl

theorem length_of_record {names : List String} {document : Json} {values : List Json}
    (record : document.record? names = some values) : values.length = names.length := by
  unfold record? at record
  split at record
  · exact (List.Forall₂.length_eq (map_m_eq_some_iff.1 record)).symm
  · split at record
    · next same =>
        cases record
        exact same
    · cases record
  · cases record

/-- The decoder takes the document for a process of this kind with these values in its fields. -/
def Finds (place : Place) (kind : NodeKind) (names : List String) (document : Json)
    (values : List Json) : Prop :=
  NodeKind.ofJson? place document = some kind ∧
    ∃ tag, document.record? ("tag" :: names) = some (tag :: values)

/-- An action is decoded from its two fields. -/
def ReadsAction (document : Json) (action : Action) : Prop :=
  ∃ first second, document.record? ["pattern", "chan"] = some [first, second] ∧
    Pattern.ofJson? first = some action.pattern ∧
    ProcessTree.ofJson? .nested second = some action.channel

/-- The ways in which the decoder gets a process from a document. -/
inductive Reads (place : Place) (document : Json) : ProcessTree → Prop
  | nil (finds : Finds place .nil [] document []) : Reads place document .nil
  | ground {literal : Ground} (kind : NodeKind.ofJson? place document = some .ground)
      (reads : Ground.ofJson? document = some literal) : Reads place document (.ground literal)
  | send {first second : Json} {channel message : ProcessTree}
      (finds : Finds place .send ["chan", "message"] document [first, second])
      (readsChannel : ProcessTree.ofJson? .nested first = some channel)
      (readsMessage : ProcessTree.ofJson? .nested second = some message) :
      Reads place document (.send channel message)
  | receive {last : Json} {items : List Json} {actions : List Action} {body : ProcessTree}
      (finds : Finds place .receive ["actions", "body"] document [.array items, last])
      (readsActions : List.Forall₂ ReadsAction items actions)
      (readsBody : ProcessTree.ofJson? .nested last = some body) :
      Reads place document (.receive actions body)
  | par {items : List Json} {operands : List ProcessTree}
      (finds : Finds place .par ["procs"] document [.array items])
      (readsOperands : List.Forall₂
        (fun item operand => ProcessTree.ofJson? .nested item = some operand) items operands) :
      Reads place document (.par operands)
  | restrict {last : Json} {items : List Json} {declarations : List Declaration}
      {body : ProcessTree}
      (finds : Finds place .restrict ["vars", "body"] document [.array items, last])
      (readsDeclarations : List.Forall₂
        (fun item declaration => Declaration.ofJson? item = some declaration) items declarations)
      (readsBody : ProcessTree.ofJson? .nested last = some body) :
      Reads place document (.restrict declarations body)
  | bundle {last : Json} {body : ProcessTree} (finds : Finds place .bundle ["proc"] document [last])
      (readsBody : ProcessTree.ofJson? .nested last = some body) :
      Reads place document (.bundle body)

theorem array_eq_some_iff {document : Json} {items : List Json} :
    document.array? = some items ↔ document = .array items := by
  cases document <;> simp [array?]

theorem reads_action_iff {document : Json} {action : Action} :
    Action.ofJson? document = some action ↔ ReadsAction document action := by
  rw [Action.ofJson?]
  constructor
  · intro read
    split at read
    · next first second record =>
        split at read
        · next pattern channel readsPattern readsChannel =>
            cases read
            exact ⟨first, second, record, readsPattern, readsChannel⟩
        · cases read
    · cases read
  · rintro ⟨first, second, record, readsPattern, readsChannel⟩
    split
    · next found =>
        cases record.symm.trans found
        cases action
        simp only [readsPattern, readsChannel]
    · next other => exact absurd record (other first second)

theorem actions_eq_some_iff {items : List Json} {actions : List Action} :
    Action.listOfJson? items = some actions ↔ List.Forall₂ ReadsAction items actions := by
  simp only [actions_eq_map_m, map_m_eq_some_iff, reads_action_iff]

theorem processes_eq_some_iff {items : List Json} {processes : List ProcessTree} :
    ProcessTree.listOfJson? items = some processes ↔
      List.Forall₂ (fun item process => ProcessTree.ofJson? .nested item = some process) items
        processes := by
  rw [processes_eq_map_m, map_m_eq_some_iff]

theorem reads_of_json {place : Place} {document : Json} {tree : ProcessTree}
    (read : ProcessTree.ofJson? place document = some tree) : Reads place document tree := by
  rw [ProcessTree.ofJson?] at read
  split at read
  · next kind =>
      obtain ⟨values, record, rfl⟩ := Option.map_eq_some_iff.1 read
      obtain ⟨tag, rfl⟩ := List.length_eq_one_iff.1 (length_of_record record)
      exact .nil ⟨kind, tag, record⟩
  · next kind =>
      obtain ⟨literal, reads, rfl⟩ := Option.map_eq_some_iff.1 read
      exact .ground kind reads
  · next kind =>
      split at read
      · next tag first second record =>
          split at read
          · next channel message readsChannel readsMessage =>
              cases read
              exact .send ⟨kind, tag, record⟩ readsChannel readsMessage
          · cases read
      · cases read
  · next kind =>
      split at read
      · next tag first last record =>
          split at read
          · next items array =>
              split at read
              · next actions body readsActions readsBody =>
                  cases read
                  cases array_eq_some_iff.1 array
                  exact .receive ⟨kind, tag, record⟩ (actions_eq_some_iff.1 readsActions) readsBody
              · cases read
          · cases read
      · cases read
  · next kind =>
      split at read
      · next tag first record =>
          split at read
          · next items array =>
              obtain ⟨operands, readsOperands, rfl⟩ := Option.map_eq_some_iff.1 read
              cases array_eq_some_iff.1 array
              exact .par ⟨kind, tag, record⟩ (processes_eq_some_iff.1 readsOperands)
          · cases read
      · cases read
  · next kind =>
      split at read
      · next tag first last record =>
          split at read
          · next items array =>
              split at read
              · next declarations body readsDeclarations readsBody =>
                  cases read
                  cases array_eq_some_iff.1 array
                  exact .restrict ⟨kind, tag, record⟩ (map_m_eq_some_iff.1 readsDeclarations)
                    readsBody
              · cases read
          · cases read
      · cases read
  · next kind =>
      split at read
      · next tag last record =>
          obtain ⟨body, readsBody, rfl⟩ := Option.map_eq_some_iff.1 read
          exact .bundle ⟨kind, tag, record⟩ readsBody
      · cases read
  · cases read

theorem of_json_reads {place : Place} {document : Json} {tree : ProcessTree}
    (reads : Reads place document tree) : ProcessTree.ofJson? place document = some tree := by
  rw [ProcessTree.ofJson?]
  cases reads with
  | nil finds =>
      obtain ⟨kind, tag, record⟩ := finds
      simp only [kind, record, Option.map_some]
  | ground kind reads => simp only [kind, reads, Option.map_some]
  | @send first second _ _ finds readsChannel readsMessage =>
      obtain ⟨kind, tag, record⟩ := finds
      simp only [kind]
      split
      · next found =>
          cases record.symm.trans found
          simp only [readsChannel, readsMessage]
      · next other => exact absurd record (other tag first second)
  | @receive last items _ _ finds readsActions readsBody =>
      obtain ⟨kind, tag, record⟩ := finds
      simp only [kind]
      split
      · next found =>
          cases record.symm.trans found
          simp only [array?, actions_eq_some_iff.2 readsActions, readsBody]
      · next other => exact absurd record (other tag _ last)
  | @par items _ finds readsOperands =>
      obtain ⟨kind, tag, record⟩ := finds
      simp only [kind]
      split
      · next found =>
          cases record.symm.trans found
          simp only [array?, processes_eq_some_iff.2 readsOperands, Option.map_some]
      · next other => exact absurd record (other tag _)
  | @restrict last items _ _ finds readsDeclarations readsBody =>
      obtain ⟨kind, tag, record⟩ := finds
      simp only [kind]
      split
      · next found =>
          cases record.symm.trans found
          simp only [array?, map_m_eq_some_iff.2 readsDeclarations, readsBody]
      · next other => exact absurd record (other tag _ last)
  | @bundle last _ finds readsBody =>
      obtain ⟨kind, tag, record⟩ := finds
      simp only [kind]
      split
      · next found =>
          cases record.symm.trans found
          simp only [readsBody, Option.map_some]
      · next other => exact absurd record (other tag last)

end Json

end RhoFrontend
