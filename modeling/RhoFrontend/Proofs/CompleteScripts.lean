import RhoFrontend.Proofs.Assertion.Runs

/-!
The script that asserts everything about one tree: the kind of each node, the value of a literal, the
number of the parts of a node and every part, and the resource of each declared name or that there
is none. Only that very tree passes it.
-/

namespace RhoFrontend

open Assertion

def Ground.script : Ground → GroundCheck
  | .int value => .int value
  | .string text => .string (.equals text)
  | .bool value => .bool value

def Declaration.script (index : Nat) (declaration : Declaration) : RestrictCheck :=
  match declaration.uri with
  | some uri => .uri index uri
  | none => .noUri index

/-- The declarations from an index on. -/
def Declaration.listScript (index : Nat) : List Declaration → List RestrictCheck
  | [] => []
  | declaration :: rest => declaration.script index :: Declaration.listScript (index + 1) rest

mutual

def ProcessTree.script : ProcessTree → Script
  | .nil => .nil
  | .ground value => .ground [value.script]
  | .send channel message => .send [.channel channel.script, .message message.script]
  | .receive actions body =>
      .receive (.actionCount actions.length :: (Action.listScript 0 actions ++ [.body body.script]))
  | .par operands => .par (.operandCount operands.length :: ProcessTree.listScript 0 operands)
  | .restrict declarations body =>
      .restrict (.names (declarations.map Declaration.name) ::
        (Declaration.listScript 0 declarations ++ [.body body.script]))
  | .bundle body => .bundle [body.script]

/-- The actions from an index on. -/
def Action.listScript (index : Nat) : List Action → List ReceiveCheck
  | [] => []
  | ⟨pattern, channel⟩ :: rest =>
      .action index [.binds pattern.boundNames, .channel channel.script] ::
        Action.listScript (index + 1) rest

/-- The operands from an index on. -/
def ProcessTree.listScript (index : Nat) : List ProcessTree → List ParCheck
  | [] => []
  | process :: rest => .operand index process.script :: ProcessTree.listScript (index + 1) rest

end

/-! Lists are compared item by item from an index on, and in the end their lengths. -/

section Lists

variable {Item : Type} {item : Item} {rest found items : List Item} {index : Nat}

theorem cons_prefix_drop_iff :
    item :: rest <+: found.drop index ↔
      found[index]? = some item ∧ rest <+: found.drop (index + 1) := by
  have first : (found.drop index)[0]? = found[index]? := by
    rw [List.getElem?_drop, Nat.add_zero]
  have later : (found.drop index).tail = found.drop (index + 1) := List.tail_drop
  rw [← first, ← later]
  cases found.drop index with
  | nil => simp
  | cons other others => simp [List.cons_prefix_cons, eq_comm]

theorem length_and_prefix_iff :
    found.length = items.length ∧ items <+: found.drop 0 ↔ found = items := by
  constructor
  · rintro ⟨same, listed⟩
    exact (listed.eq_of_length same.symm).symm
  · rintro rfl
    exact ⟨rfl, List.prefix_rfl⟩

theorem Declaration.list_ext {left right : List Declaration}
    (names : left.map Declaration.name = right.map Declaration.name)
    (uris : left.map Declaration.uri = right.map Declaration.uri) : left = right := by
  induction left generalizing right with
  | nil => exact (List.map_eq_nil_iff.1 names.symm).symm
  | cons declaration rest induction =>
      obtain ⟨other, others, rfl, name, laterNames⟩ := List.map_eq_cons_iff.1 names.symm
      obtain ⟨uri, laterUris⟩ := List.cons.inj uris
      rw [induction laterNames.symm laterUris]
      cases declaration
      cases other
      cases name
      cases uri
      rfl

theorem Declaration.names_and_uris_iff {declarations others : List Declaration} :
    others.map Declaration.name = declarations.map Declaration.name ∧
        declarations.map Declaration.uri <+: (others.map Declaration.uri).drop 0 ↔
      others = declarations := by
  constructor
  · rintro ⟨names, uris⟩
    have same : others.length = declarations.length := by
      simpa using congrArg List.length names
    apply Declaration.list_ext names
    apply length_and_prefix_iff.1 ⟨?_, uris⟩
    rw [List.length_map, List.length_map, same]
  · rintro rfl
    exact ⟨rfl, List.prefix_rfl⟩

end Lists

theorem Ground.script_met_iff (value found : Ground) :
    value.script.requirement.Met (.ofProcess (.ground found)) ↔ found = value := by
  cases value with
  | int => exact Requirement.met_int
  | bool => exact Requirement.met_bool
  | string text =>
      refine Requirement.met_string.trans ?_
      simp [TextExpectation.Met]

theorem Node.kind_eq_process {node : Node} {process : ProcessTree}
    (same : node.kind = process.kind) : ∃ found, node = .ofProcess found := by
  cases node with
  | ofProcess found => exact ⟨found, rfl⟩
  | ofAction | ofPattern | ofDeclaration => cases process <;> cases same

section Complete

variable {root : Node} {path : Path}

/-- Behind the check of the kind, only processes of that kind are left to compare. -/
theorem ProcessTree.holds_iff_of_kind (process : ProcessTree) {checks : List Check}
    (parts : ∀ found, root.follow? path = some (.ofProcess found) → found.kind = process.kind →
      ((∀ check ∈ checks, check.Holds root) ↔ found = process)) :
    (∀ check ∈ ⟨path, .kind process.kind⟩ :: checks, check.Holds root) ↔
      root.follow? path = some (.ofProcess process) := by
  rw [List.forall_mem_cons]
  constructor
  · rintro ⟨⟨node, leads, same⟩, others⟩
    obtain ⟨found, rfl⟩ := Node.kind_eq_process same
    rw [leads, (parts found leads same).1 others]
  · intro leads
    exact ⟨⟨_, leads, rfl⟩, (parts process leads rfl).2 rfl⟩

theorem Declaration.list_script_holds_iff {found : List Declaration} {body : ProcessTree}
    (leads : root.follow? path = some (.ofProcess (.restrict found body)))
    (declarations : List Declaration) (index : Nat) (later : List RestrictCheck) :
    (∀ check ∈ RestrictCheck.listChecks path (Declaration.listScript index declarations ++ later),
        check.Holds root) ↔
      declarations.map Declaration.uri <+: (found.map Declaration.uri).drop index ∧
        ∀ check ∈ RestrictCheck.listChecks path later, check.Holds root := by
  induction declarations generalizing index with
  | nil => simp [Declaration.listScript]
  | cons declaration rest induction =>
      rw [Declaration.listScript, List.cons_append, List.map_cons, cons_prefix_drop_iff, and_assoc,
        ← induction]
      obtain ⟨name, _ | uri⟩ := declaration
      · rw [Declaration.script, RestrictCheck.listChecks, List.singleton_append,
          List.forall_mem_cons, Check.holds_iff leads, Requirement.met_no_uri]
      · rw [Declaration.script, RestrictCheck.listChecks, List.singleton_append,
          List.forall_mem_cons, Check.holds_iff leads, Requirement.met_uri]

/-- An operand is there, and it is as its own script says. -/
theorem ProcessTree.there_iff {found : List ProcessTree} {process : ProcessTree} {index : Nat}
    (leads : root.follow? path = some (.ofProcess (.par found)))
    (inner : (∀ check ∈ process.script.checks (path ++ [.operand index]), check.Holds root) ↔
      root.follow? (path ++ [.operand index]) = some (.ofProcess process)) :
    ((Requirement.hasOperand index).Met (.ofProcess (.par found)) ∧
        ∀ check ∈ process.script.checks (path ++ [.operand index]), check.Holds root) ↔
      found[index]? = some process := by
  rw [inner, Node.follow_step leads, Requirement.met_has_operand, Node.stepTo?]
  cases there : found[index]? with
  | none => simp
  | some other =>
      have bound : index < found.length := (List.getElem?_eq_some_iff.1 there).1
      simp [bound]

/-- An action is there, and it binds and listens to what its own script says. -/
theorem Action.there_iff {found : List Action} {body : ProcessTree} {pattern : Pattern}
    {channel : ProcessTree} {index : Nat}
    (leads : root.follow? path = some (.ofProcess (.receive found body)))
    (inner : (∀ check ∈ channel.script.checks (path ++ [.action index] ++ [.channel]),
        check.Holds root) ↔
      root.follow? (path ++ [.action index] ++ [.channel]) = some (.ofProcess channel)) :
    ((Requirement.hasAction index).Met (.ofProcess (.receive found body)) ∧
        ∀ check ∈ ActionCheck.listChecks (path ++ [.action index])
          [.binds pattern.boundNames, .channel channel.script], check.Holds root) ↔
      found[index]? = some ⟨pattern, channel⟩ := by
  have step := Node.follow_step leads (.action index)
  rw [ActionCheck.listChecks, ActionCheck.listChecks, ActionCheck.listChecks, List.append_nil,
    List.singleton_append, List.forall_mem_cons, inner, Requirement.met_has_action]
  cases there : found[index]? with
  | none =>
      have beyond : found.length ≤ index := List.getElem?_eq_none_iff.1 there
      simp [Nat.not_lt.2 beyond]
  | some other =>
      have bound : index < found.length := (List.getElem?_eq_some_iff.1 there).1
      rw [Node.stepTo?, there, Option.map_some] at step
      rw [Check.holds_iff step, Node.follow_step step, Requirement.met_binds]
      obtain ⟨⟨name⟩, otherChannel⟩ := other
      obtain ⟨expected⟩ := pattern
      simp [bound, Node.stepTo?, Pattern.boundNames]

mutual

/-- All checks hold only where the path leads to the process itself. -/
theorem ProcessTree.script_holds_iff {path : Path} (process : ProcessTree) :
    (∀ check ∈ process.script.checks path, check.Holds root) ↔
      root.follow? path = some (.ofProcess process) := by
  match process with
  | .nil =>
      apply ProcessTree.holds_iff_of_kind .nil
      intro found leads same
      cases found with
      | nil => simp
      | _ => cases same
  | .ground value =>
      apply ProcessTree.holds_iff_of_kind (.ground value)
      intro found leads same
      cases found with
      | ground other =>
          rw [List.map_singleton, List.forall_mem_singleton, Check.holds_iff leads,
            Ground.script_met_iff, ProcessTree.ground.injEq]
      | _ => cases same
  | .send channel message =>
      apply ProcessTree.holds_iff_of_kind (.send channel message)
      intro found leads same
      cases found with
      | send otherChannel otherMessage =>
          simp only [SendCheck.listChecks, List.append_nil, List.forall_mem_append,
            channel.script_holds_iff, message.script_holds_iff, Node.follow_step leads,
            Node.stepTo?, Option.some.injEq, Node.ofProcess.injEq, ProcessTree.send.injEq]
      | _ => cases same
  | .receive actions body =>
      apply ProcessTree.holds_iff_of_kind (.receive actions body)
      intro found leads same
      cases found with
      | receive others otherBody =>
          rw [ReceiveCheck.listChecks, List.singleton_append, List.forall_mem_cons,
            Check.holds_iff leads, Action.list_script_holds_iff leads, ReceiveCheck.listChecks,
            ReceiveCheck.listChecks, List.append_nil, body.script_holds_iff, Node.follow_step leads,
            Requirement.met_action_count, ← and_assoc, length_and_prefix_iff]
          simp [Node.stepTo?]
      | _ => cases same
  | .par operands =>
      apply ProcessTree.holds_iff_of_kind (.par operands)
      intro found leads same
      cases found with
      | par others =>
          rw [ParCheck.listChecks, List.singleton_append, List.forall_mem_cons,
            Check.holds_iff leads, ProcessTree.list_script_holds_iff leads,
            Requirement.met_operand_count, length_and_prefix_iff, ProcessTree.par.injEq]
      | _ => cases same
  | .restrict declarations body =>
      apply ProcessTree.holds_iff_of_kind (.restrict declarations body)
      intro found leads same
      cases found with
      | restrict others otherBody =>
          rw [RestrictCheck.listChecks, List.singleton_append, List.forall_mem_cons,
            Check.holds_iff leads, Declaration.list_script_holds_iff leads,
            RestrictCheck.listChecks, RestrictCheck.listChecks, List.append_nil,
            body.script_holds_iff, Node.follow_step leads, Requirement.met_names, ← and_assoc,
            Declaration.names_and_uris_iff]
          simp [Node.stepTo?]
      | _ => cases same
  | .bundle body =>
      apply ProcessTree.holds_iff_of_kind (.bundle body)
      intro found leads same
      cases found with
      | bundle otherBody =>
          simp only [Script.listChecks, List.append_nil, body.script_holds_iff,
            Node.follow_step leads, Node.stepTo?, Option.some.injEq, Node.ofProcess.injEq,
            ProcessTree.bundle.injEq]
      | _ => cases same

theorem Action.list_script_holds_iff {path : Path} {found : List Action} {body : ProcessTree}
    (leads : root.follow? path = some (.ofProcess (.receive found body)))
    (actions : List Action) (index : Nat) (later : List ReceiveCheck) :
    (∀ check ∈ ReceiveCheck.listChecks path (Action.listScript index actions ++ later),
        check.Holds root) ↔
      actions <+: found.drop index ∧
        ∀ check ∈ ReceiveCheck.listChecks path later, check.Holds root := by
  match actions with
  | [] => simp [Action.listScript]
  | ⟨pattern, channel⟩ :: rest =>
      rw [Action.listScript, List.cons_append, ReceiveCheck.listChecks, List.cons_append,
        List.forall_mem_cons, List.forall_mem_append, Check.holds_iff leads,
        Action.list_script_holds_iff leads rest, cons_prefix_drop_iff, ← and_assoc,
        Action.there_iff leads channel.script_holds_iff, and_assoc]

theorem ProcessTree.list_script_holds_iff {path : Path} {found : List ProcessTree}
    (leads : root.follow? path = some (.ofProcess (.par found))) (operands : List ProcessTree)
    (index : Nat) :
    (∀ check ∈ ParCheck.listChecks path (ProcessTree.listScript index operands),
        check.Holds root) ↔ operands <+: found.drop index := by
  match operands with
  | [] => simp [ProcessTree.listScript, ParCheck.listChecks]
  | process :: rest =>
      rw [ProcessTree.listScript, ParCheck.listChecks, List.cons_append, List.forall_mem_cons,
        List.forall_mem_append, Check.holds_iff leads,
        ProcessTree.list_script_holds_iff leads rest, cons_prefix_drop_iff, ← and_assoc,
        ProcessTree.there_iff leads process.script_holds_iff]

end

end Complete

/-- The complete script of a tree is passed by this tree and by no other. -/
theorem complete_script_characterizes (tree other : ProcessTree) :
    run tree.script other = .ok () ↔ other = tree := by
  obtain ⟨result, runs, same⟩ := run_eq tree.script other
  have passed : result = none ↔ other = tree := by
    rw [runs.passed_iff, tree.script_holds_iff]
    simp [Node.follow?]
  rw [same, ← passed]
  cases result <;> simp

-- A string is told from an integer of the same text.
example : run (ProcessTree.ground (.int 1)).script (.ground (.string "1")) =
    .error ⟨[], .int 1 (.string "1")⟩ := rfl

end RhoFrontend
