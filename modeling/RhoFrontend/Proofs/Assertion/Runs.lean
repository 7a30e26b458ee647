import RhoFrontend.Proofs.Assertion.Checks

/-!
The run of a script is the run of its checks. What one part of a script does is stated for the checks
of that part, and the parts of a script run one after another, each at the node that the part before
has found there.
-/

namespace RhoFrontend.Assertion

def GroundCheck.requirement : GroundCheck → Requirement
  | .int expected => .int expected
  | .bool expected => .bool expected
  | .string expected => .string expected

mutual

/-- The checks of a script that is run at a path, in their order. They are the same for every tree. -/
def Script.checks (path : Path) : Script → List Check
  | .anything => []
  | .nil => [⟨path, .kind .nil⟩]
  | .ground parts => ⟨path, .kind .ground⟩ :: parts.map fun part => ⟨path, part.requirement⟩
  | .send parts => ⟨path, .kind .send⟩ :: SendCheck.listChecks path parts
  | .receive parts => ⟨path, .kind .receive⟩ :: ReceiveCheck.listChecks path parts
  | .par parts => ⟨path, .kind .par⟩ :: ParCheck.listChecks path parts
  | .restrict parts => ⟨path, .kind .restrict⟩ :: RestrictCheck.listChecks path parts
  | .bundle bodies => ⟨path, .kind .bundle⟩ :: Script.listChecks (path ++ [.bundled]) bodies

def Script.listChecks (path : Path) : List Script → List Check
  | [] => []
  | script :: rest => script.checks path ++ Script.listChecks path rest

def SendCheck.listChecks (path : Path) : List SendCheck → List Check
  | [] => []
  | .channel script :: rest => script.checks (path ++ [.channel]) ++ SendCheck.listChecks path rest
  | .message script :: rest => script.checks (path ++ [.message]) ++ SendCheck.listChecks path rest

def ReceiveCheck.listChecks (path : Path) : List ReceiveCheck → List Check
  | [] => []
  | .actionCount expected :: rest =>
      [⟨path, .actionCount expected⟩] ++ ReceiveCheck.listChecks path rest
  | .action index parts :: rest =>
      ⟨path, .hasAction index⟩ :: ActionCheck.listChecks (path ++ [.action index]) parts ++
        ReceiveCheck.listChecks path rest
  | .body script :: rest => script.checks (path ++ [.body]) ++ ReceiveCheck.listChecks path rest

def ActionCheck.listChecks (path : Path) : List ActionCheck → List Check
  | [] => []
  | .binds expected :: rest => [⟨path, .binds expected⟩] ++ ActionCheck.listChecks path rest
  | .channel script :: rest =>
      script.checks (path ++ [.channel]) ++ ActionCheck.listChecks path rest

def ParCheck.listChecks (path : Path) : List ParCheck → List Check
  | [] => []
  | .operandCount expected :: rest =>
      [⟨path, .operandCount expected⟩] ++ ParCheck.listChecks path rest
  | .operand index script :: rest =>
      ⟨path, .hasOperand index⟩ :: script.checks (path ++ [.operand index]) ++
        ParCheck.listChecks path rest

def RestrictCheck.listChecks (path : Path) : List RestrictCheck → List Check
  | [] => []
  | .names expected :: rest => [⟨path, .names expected⟩] ++ RestrictCheck.listChecks path rest
  | .uri index expected :: rest =>
      [⟨path, .uri index expected⟩] ++ RestrictCheck.listChecks path rest
  | .noUri index :: rest => [⟨path, .noUri index⟩] ++ RestrictCheck.listChecks path rest
  | .body script :: rest => script.checks (path ++ [.body]) ++ RestrictCheck.listChecks path rest

end

/-- Checks are gone through one by one. One that holds lets the run go on, and one that does not ends
it with a report. -/
inductive Runs (root : Node) : List Check → Option Failure → Prop
  | passed : Runs root [] none
  | holds {check : Check} {later : List Check} {result : Option Failure} (holds : check.Holds root)
      (others : Runs root later result) : Runs root (check :: later) result
  | fails {check : Check} {later : List Check} {failure : Failure}
      (reports : check.Reports root failure) : Runs root (check :: later) (some failure)

namespace Runs

variable {root : Node} {checks later : List Check} {result other : Option Failure}

/-- What comes behind counts only where nothing has failed before. -/
theorem orElse (first : Runs root checks result) (second : Runs root later other) :
    Runs root (checks ++ later) (result <|> other) := by
  induction first with
  | passed => exact second
  | holds holds _ induction => exact .holds holds induction
  | fails reports => exact .fails reports

/-- A check whose condition the runner evaluates itself. -/
theorem of_condition {condition : Bool} {path : Path} {difference : Difference} {check : Check}
    (holds : condition = true → check.Holds root)
    (fails : condition = false → check.Reports root ⟨path, difference⟩) :
    Runs root [check] (failUnless condition path difference) := by
  cases condition with
  | true => exact .holds (holds rfl) .passed
  | false => exact .fails (fails rfl)

/-- A check that compares what is found with what is expected. -/
theorem of_comparison {Value : Type} [BEq Value] [LawfulBEq Value] {found expected : Value}
    {path : Path} {difference : Difference} {check : Check}
    (holds : found = expected → check.Holds root)
    (fails : found ≠ expected → check.Reports root ⟨path, difference⟩) :
    Runs root [check] (failUnless (found == expected) path difference) := by
  apply of_condition
  · exact fun same => holds (beq_iff_eq.1 same)
  · exact fun differs => fails (beq_eq_false_iff_ne.1 differs)

theorem passed_iff (runs : Runs root checks result) :
    result = none ↔ ∀ check ∈ checks, check.Holds root := by
  induction runs with
  | passed => exact ⟨fun _ => nofun, fun _ => rfl⟩
  | holds holds _ induction =>
      rw [induction, List.forall_mem_cons]
      exact (and_iff_right holds).symm
  | fails reports =>
      constructor
      · exact nofun
      · intro all
        exact absurd (all _ List.mem_cons_self) reports.fails

/-- A run that fails has a first check that does not hold, and reports that one. -/
theorem exists_first {failure : Failure} (runs : Runs root checks (some failure)) :
    ∃ before check after, checks = before ++ check :: after ∧
      (∀ earlier ∈ before, earlier.Holds root) ∧ check.Reports root failure := by
  generalize same : some failure = result at runs
  induction runs with
  | passed => cases same
  | holds holds _ induction =>
      obtain ⟨before, check, after, rfl, all, reports⟩ := induction same
      exact ⟨_ :: before, check, after, rfl, List.forall_mem_cons.2 ⟨holds, all⟩, reports⟩
  | @fails check later _ reports =>
      cases same
      exact ⟨[], check, later, rfl, nofun, reports⟩

end Runs

section Parts

variable {root : Node} {path : Path}

/-- The script is for another kind of process. -/
theorem Runs.of_other_kind {process : ProcessTree} {expected : NodeKind} {checks : List Check}
    (leads : root.follow? path = some (.ofProcess process)) (differs : process.kind ≠ expected) :
    Runs root (⟨path, .kind expected⟩ :: checks) (some ⟨path, .kind expected process.kind⟩) :=
  .fails (.kind leads differs)

theorem Runs.of_kind {process : ProcessTree} {checks : List Check} {result : Option Failure}
    (leads : root.follow? path = some (.ofProcess process)) (others : Runs root checks result) :
    Runs root (⟨path, .kind process.kind⟩ :: checks) result :=
  .holds ⟨_, leads, rfl⟩ others

theorem GroundCheck.runs {value : Ground}
    (leads : root.follow? path = some (.ofProcess (.ground value))) (part : GroundCheck) :
    Runs root [⟨path, part.requirement⟩] (part.failure? path value) := by
  cases part with
  | int expected =>
      apply Runs.of_comparison
      · exact fun same => (Check.holds_iff leads _).2 (Requirement.met_int.2 same)
      · exact fun differs => .int leads differs
  | bool expected =>
      apply Runs.of_comparison
      · exact fun same => (Check.holds_iff leads _).2 (Requirement.met_bool.2 same)
      · exact fun differs => .bool leads differs
  | string expected =>
      cases value with
      | string text =>
          apply Runs.of_condition
          · intro accepted
            exact ⟨_, leads, text, rfl, (expected.accepts_iff text).1 accepted⟩
          · intro refused
            apply Check.Reports.string leads
            intro met
            rw [(expected.accepts_iff text).2 met] at refused
            cases refused
      | int | bool => exact .fails (.notString leads nofun)

theorem GroundCheck.list_runs {value : Ground}
    (leads : root.follow? path = some (.ofProcess (.ground value))) (parts : List GroundCheck) :
    Runs root (parts.map fun part => ⟨path, part.requirement⟩)
      (parts.findSome? (GroundCheck.failure? path value)) := by
  induction parts with
  | nil => exact .passed
  | cons part parts induction =>
      have both := (part.runs leads).orElse induction
      rw [List.findSome?_cons]
      cases found : part.failure? path value with
      | none => rwa [found] at both
      | some failure => rwa [found] at both

section Restriction

variable {declarations : List Declaration} {body : ProcessTree}
  (leads : root.follow? path = some (.ofProcess (.restrict declarations body)))

include leads

theorem uri_runs (index : Nat) (expected : String) :
    Runs root [⟨path, .uri index expected⟩] (uriFailure? path declarations index expected) := by
  unfold uriFailure?
  split
  · next missing =>
      have beyond := List.getElem?_eq_none_iff.1 missing
      exact .fails (.declarationMissing leads beyond (.inr ⟨expected, rfl⟩))
  · next name free => exact .fails (.uriMissing leads free)
  · next name found bound =>
      apply Runs.of_comparison
      · intro same
        cases same
        exact ⟨_, leads, declarations, body, name, rfl, bound⟩
      · exact fun differs => .uri leads bound differs

theorem no_uri_runs (index : Nat) :
    Runs root [⟨path, .noUri index⟩] (noUriFailure? path declarations index) := by
  unfold noUriFailure?
  split
  · next missing =>
      have beyond := List.getElem?_eq_none_iff.1 missing
      exact .fails (.declarationMissing leads beyond (.inl rfl))
  · next name free => exact .holds ⟨_, leads, declarations, body, name, rfl, free⟩ .passed
  · next name found bound => exact .fails (.uriPresent leads bound)

end Restriction

end Parts

/-! A script is run at a path that leads to the process it is given. Every step that it takes from
there leads to the part that the runner hands on. -/

section Run

variable {root : Node}

mutual

theorem Script.runs {path : Path} {process : ProcessTree}
    (leads : root.follow? path = some (.ofProcess process)) (script : Script) :
    Runs root (script.checks path) (script.failure? path process) := by
  match script with
  | .anything => exact .passed
  | .nil =>
      cases process with
      | nil => exact .of_kind leads .passed
      | _ => exact .of_other_kind leads nofun
  | .ground parts =>
      cases process with
      | ground value => exact .of_kind leads (GroundCheck.list_runs leads parts)
      | _ => exact .of_other_kind leads nofun
  | .send parts =>
      cases process with
      | send channel message => exact .of_kind leads (SendCheck.list_runs leads parts)
      | _ => exact .of_other_kind leads nofun
  | .receive parts =>
      cases process with
      | receive actions body => exact .of_kind leads (ReceiveCheck.list_runs leads parts)
      | _ => exact .of_other_kind leads nofun
  | .par parts =>
      cases process with
      | par operands => exact .of_kind leads (ParCheck.list_runs leads parts)
      | _ => exact .of_other_kind leads nofun
  | .restrict parts =>
      cases process with
      | restrict declarations body => exact .of_kind leads (RestrictCheck.list_runs leads parts)
      | _ => exact .of_other_kind leads nofun
  | .bundle bodies =>
      cases process with
      | bundle body =>
          have inner := Node.follow_step leads .bundled
          exact .of_kind leads (Script.list_runs inner bodies)
      | _ => exact .of_other_kind leads nofun

theorem Script.list_runs {path : Path} {process : ProcessTree}
    (leads : root.follow? path = some (.ofProcess process)) (scripts : List Script) :
    Runs root (Script.listChecks path scripts) (Script.listFailure? path process scripts) := by
  match scripts with
  | [] => exact .passed
  | script :: rest => exact (script.runs leads).orElse (Script.list_runs leads rest)

theorem SendCheck.list_runs {path : Path} {channel message : ProcessTree}
    (leads : root.follow? path = some (.ofProcess (.send channel message)))
    (parts : List SendCheck) : Runs root (SendCheck.listChecks path parts)
      (SendCheck.listFailure? path channel message parts) := by
  match parts with
  | [] => exact .passed
  | .channel script :: rest =>
      have inner := Node.follow_step leads .channel
      exact (script.runs inner).orElse (SendCheck.list_runs leads rest)
  | .message script :: rest =>
      have inner := Node.follow_step leads .message
      exact (script.runs inner).orElse (SendCheck.list_runs leads rest)

theorem ReceiveCheck.list_runs {path : Path} {actions : List Action} {body : ProcessTree}
    (leads : root.follow? path = some (.ofProcess (.receive actions body)))
    (parts : List ReceiveCheck) : Runs root (ReceiveCheck.listChecks path parts)
      (ReceiveCheck.listFailure? path actions body parts) := by
  match parts with
  | [] => exact .passed
  | .actionCount expected :: rest =>
      apply Runs.orElse
      · apply Runs.of_comparison
        · exact fun same => ⟨_, leads, actions, body, rfl, same⟩
        · exact fun differs => .actionCount leads differs
      · exact ReceiveCheck.list_runs leads rest
  | .action index inside :: rest =>
      apply Runs.orElse
      · cases there : actions[index]? with
        | none => exact .fails (.actionMissing leads (List.getElem?_eq_none_iff.1 there))
        | some action =>
            have bound : index < actions.length := (List.getElem?_eq_some_iff.1 there).1
            have inner : root.follow? (path ++ [.action index]) = some (.ofAction action) := by
              rw [Node.follow_step leads, Node.stepTo?, there, Option.map_some]
            apply Runs.holds
            · exact ⟨_, leads, actions, body, rfl, bound⟩
            · exact ActionCheck.list_runs inner inside
      · exact ReceiveCheck.list_runs leads rest
  | .body script :: rest =>
      have inner := Node.follow_step leads .body
      exact (script.runs inner).orElse (ReceiveCheck.list_runs leads rest)

theorem ActionCheck.list_runs {path : Path} {action : Action}
    (leads : root.follow? path = some (.ofAction action)) (parts : List ActionCheck) :
    Runs root (ActionCheck.listChecks path parts) (ActionCheck.listFailure? path action parts) := by
  match parts with
  | [] => exact .passed
  | .binds expected :: rest =>
      apply Runs.orElse
      · apply Runs.of_comparison
        · exact fun same => ⟨_, leads, action, rfl, same⟩
        · exact fun differs => .binds leads differs
      · exact ActionCheck.list_runs leads rest
  | .channel script :: rest =>
      have inner := Node.follow_step leads .channel
      exact (script.runs inner).orElse (ActionCheck.list_runs leads rest)

theorem ParCheck.list_runs {path : Path} {operands : List ProcessTree}
    (leads : root.follow? path = some (.ofProcess (.par operands))) (parts : List ParCheck) :
    Runs root (ParCheck.listChecks path parts) (ParCheck.listFailure? path operands parts) := by
  match parts with
  | [] => exact .passed
  | .operandCount expected :: rest =>
      apply Runs.orElse
      · apply Runs.of_comparison
        · exact fun same => ⟨_, leads, operands, rfl, same⟩
        · exact fun differs => .operandCount leads differs
      · exact ParCheck.list_runs leads rest
  | .operand index script :: rest =>
      apply Runs.orElse
      · cases there : operands[index]? with
        | none => exact .fails (.operandMissing leads (List.getElem?_eq_none_iff.1 there))
        | some operand =>
            have bound : index < operands.length := (List.getElem?_eq_some_iff.1 there).1
            have inner : root.follow? (path ++ [.operand index]) = some (.ofProcess operand) := by
              rw [Node.follow_step leads, Node.stepTo?, there, Option.map_some]
            apply Runs.holds
            · exact ⟨_, leads, operands, rfl, bound⟩
            · exact script.runs inner
      · exact ParCheck.list_runs leads rest

theorem RestrictCheck.list_runs {path : Path} {declarations : List Declaration}
    {body : ProcessTree}
    (leads : root.follow? path = some (.ofProcess (.restrict declarations body)))
    (parts : List RestrictCheck) : Runs root (RestrictCheck.listChecks path parts)
      (RestrictCheck.listFailure? path declarations body parts) := by
  match parts with
  | [] => exact .passed
  | .names expected :: rest =>
      apply Runs.orElse
      · apply Runs.of_comparison
        · exact fun same => ⟨_, leads, declarations, body, rfl, same⟩
        · exact fun differs => .names leads differs
      · exact RestrictCheck.list_runs leads rest
  | .uri index expected :: rest =>
      exact (uri_runs leads index expected).orElse (RestrictCheck.list_runs leads rest)
  | .noUri index :: rest =>
      exact (no_uri_runs leads index).orElse (RestrictCheck.list_runs leads rest)
  | .body script :: rest =>
      have inner := Node.follow_step leads .body
      exact (script.runs inner).orElse (RestrictCheck.list_runs leads rest)

end

end Run

/-- A whole run begins at the root. -/
theorem run_eq (script : Script) (tree : ProcessTree) :
    ∃ result, Runs (.ofProcess tree) (script.checks []) result ∧
      run script tree = match result with
        | some failure => .error failure
        | none => .ok () :=
  ⟨script.failure? [] tree, script.runs rfl, rfl⟩

end RhoFrontend.Assertion
