import RhoFrontend.Proofs.Assertion.Paths
import RhoFrontend.Proofs.Assertion.Runs

/-!
The report of a script that fails. It names the path of one node, and what it shows as found there is
what the node has. Only a declaration that is missing has no node: its path goes one step beyond the
restriction that lacks it.
-/

namespace RhoFrontend.Assertion

def plainReport (path : Path) (message : String) : String := describePath path ++ ": " ++ message

def comparisonHeading : String := "assertion `left == right` failed: "

/-- The report of a comparison for equality has a heading in front and both values at its end. -/
def comparisonReport (path : Path) (message found expected : String) : String :=
  comparisonHeading ++
    plainReport path (message ++ "\n  left: " ++ found ++ "\n right: " ++ expected)

/-- The path that stands in front of the message of a report. -/
def ReportNames (report : String) (path : Path) : Prop :=
  ∃ rest, report = plainReport path rest ∨ report = comparisonHeading ++ plainReport path rest

/-- What is reported of a node that is not as required. All that is shown as found is the node's. -/
inductive Requirement.Reported (path : Path) : Requirement → Node → String → Prop
  | kind {expected : NodeKind} {process : ProcessTree} (differs : process.kind ≠ expected) :
      Reported path (.kind expected) (.ofProcess process)
        (plainReport path ("Expected " ++ expected.tag ++ ", found " ++ process.kind.tag))
  | int {expected : Int64} {value : Ground} (differs : value ≠ .int expected) :
      Reported path (.int expected) (.ofProcess (.ground value))
        (comparisonReport path
          ("Expected int " ++ (Ground.int expected).literal ++ ", found " ++
            (value.type.name ++ " " ++ value.literal))
          (describeValue value) (describeValue (.int expected)))
  | bool {expected : Bool} {value : Ground} (differs : value ≠ .bool expected) :
      Reported path (.bool expected) (.ofProcess (.ground value))
        (comparisonReport path
          ("Expected bool " ++ toString expected ++ ", found " ++
            (value.type.name ++ " " ++ value.literal))
          (describeValue value) (describeValue (.bool expected)))
  | notString {expected : TextExpectation} {value : Ground}
      (differs : ∀ text, value ≠ .string text) :
      Reported path (.string expected) (.ofProcess (.ground value))
        (plainReport path ("Expected string, found " ++ (value.type.name ++ " " ++ value.literal)))
  | string {expected : TextExpectation} {text : String} (differs : ¬ expected.Met text) :
      Reported path (.string expected) (.ofProcess (.ground (.string text)))
        (plainReport path ("Expected text " ++ expected.describe ++ ", but got '" ++ text ++ "'"))
  | actionCount {expected : Nat} {actions : List Action} {body : ProcessTree}
      (differs : actions.length ≠ expected) :
      Reported path (.actionCount expected) (.ofProcess (.receive actions body))
        (comparisonReport path
          ("Expected " ++ toString expected ++ " actions, found " ++ toString actions.length ++
            " actions")
          (toString actions.length) (toString expected))
  | actionMissing {index : Nat} {actions : List Action} {body : ProcessTree}
      (missing : actions.length ≤ index) :
      Reported path (.hasAction index) (.ofProcess (.receive actions body))
        (plainReport path
          ("Action index " ++ toString index ++ " out of bounds (join has " ++
            toString actions.length ++ " actions)"))
  | binds {expected : List String} {action : Action}
      (differs : action.pattern.boundNames ≠ expected) :
      Reported path (.binds expected) (.ofAction action)
        (comparisonReport path
          ("Expected pattern to bind " ++ Text.quotedList expected ++ ", found " ++
            Text.quotedList action.pattern.boundNames)
          (Text.quotedList action.pattern.boundNames) (Text.quotedList expected))
  | operandCount {expected : Nat} {operands : List ProcessTree}
      (differs : operands.length ≠ expected) :
      Reported path (.operandCount expected) (.ofProcess (.par operands))
        (comparisonReport path
          ("Expected " ++ toString expected ++ " procs, found " ++ toString operands.length ++
            " procs: [" ++ String.intercalate ", " (operands.map fun process => process.kind.tag) ++
            "]")
          (toString operands.length) (toString expected))
  | operandMissing {index : Nat} {operands : List ProcessTree}
      (missing : operands.length ≤ index) :
      Reported path (.hasOperand index) (.ofProcess (.par operands))
        (plainReport path
          ("Proc index " ++ toString index ++ " out of bounds (par has " ++
            toString operands.length ++ " procs)"))
  | names {expected : List String} {declarations : List Declaration} {body : ProcessTree}
      (differs : declarations.map Declaration.name ≠ expected) :
      Reported path (.names expected) (.ofProcess (.restrict declarations body))
        (comparisonReport path
          ("Expected names " ++ Text.quotedList expected ++ ", found " ++
            Text.quotedList (declarations.map Declaration.name))
          (Text.quotedList (declarations.map Declaration.name)) (Text.quotedList expected))
  | uriMissing {index : Nat} {name expected : String} :
      Reported path (.uri index expected) (.ofDeclaration ⟨name, none⟩)
        (plainReport path ("Expected uri '" ++ expected ++ "', found none"))
  | uri {index : Nat} {name expected found : String} (differs : found ≠ expected) :
      Reported path (.uri index expected) (.ofDeclaration ⟨name, some found⟩)
        (plainReport path
          ("Expected text " ++ (TextExpectation.equals expected).describe ++ ", but got '" ++ found ++
            "'"))
  | uriPresent {index : Nat} {name found : String} :
      Reported path (.noUri index) (.ofDeclaration ⟨name, some found⟩)
        (plainReport path ("Expected no uri, found Some(" ++ Text.quoted found ++ ")"))

namespace Failure

variable {path : Path} {difference : Difference}

theorem report_plain (single : difference.compared? = none) :
    report ⟨path, difference⟩ = plainReport path difference.message := by
  rw [report, single]
  rfl

-- No text here is a literal: rewriting next to one would compare it character by character.
theorem regroup (heading path colon message left found right expected : String) :
    heading ++ (path ++ colon ++ message) ++ left ++ found ++ right ++ expected =
      heading ++ (path ++ colon ++ (message ++ left ++ found ++ right ++ expected)) := by
  simp only [String.append_assoc]

theorem report_comparison {found expected : String}
    (both : difference.compared? = some (found, expected)) :
    report ⟨path, difference⟩ = comparisonReport path difference.message found expected := by
  rw [report, both]
  exact regroup _ _ _ _ _ _ _ _

/-- The heading is no path, since paths begin with another letter. -/
theorem path_ne_heading {message rest : String} {other : Path} :
    plainReport path rest ≠ comparisonHeading ++ plainReport other message := by
  intro same
  have chars := congrArg (fun text => text.toList.head?) same
  simp [plainReport, comparisonHeading, describe_path_to_list] at chars

/-- A report names one path, that of its failure. -/
theorem report_names_iff (failure : Failure) (path : Path) :
    ReportNames failure.report path ↔ path = failure.path := by
  obtain ⟨place, difference⟩ := failure
  cases compared : difference.compared? with
  | none =>
      rw [report_plain compared]
      constructor
      · rintro ⟨rest, same | same⟩
        · exact (path_unique same).symm
        · exact absurd same path_ne_heading
      · rintro rfl
        exact ⟨_, .inl rfl⟩
  | some values =>
      rw [report_comparison compared]
      constructor
      · rintro ⟨rest, same | same⟩
        · exact absurd same.symm path_ne_heading
        · exact (path_unique ((String.append_right_inj _).1 same)).symm
      · rintro rfl
        exact ⟨_, .inr rfl⟩

end Failure

theorem operand_count_message (expected : Nat) (operands : List ProcessTree) :
    (Difference.operandCount expected (operands.map ProcessTree.kind)).message =
      "Expected " ++ toString expected ++ " procs, found " ++ toString operands.length ++
        " procs: [" ++ String.intercalate ", " (operands.map fun process => process.kind.tag) ++
        "]" := by
  unfold Difference.message
  dsimp only
  rw [List.length_map, List.map_map]
  rfl

/-- A report is one about the node that its path leads to, or about a declaration that a restriction
lacks. -/
theorem Check.Reports.reported {root : Node} {check : Check} {failure : Failure}
    (reports : check.Reports root failure) :
    (∃ node, root.follow? failure.path = some node ∧
        check.requirement.Reported failure.path node failure.report) ∨
      ∃ index declarations body, failure.path = check.path ++ [.declaration index] ∧
        root.follow? check.path = some (.ofProcess (.restrict declarations body)) ∧
        declarations.length ≤ index ∧ failure.report = plainReport failure.path "out of bounds" := by
  have declared {path : Path} {index : Nat} {declarations : List Declaration} {body : ProcessTree}
      {declaration : Declaration}
      (leads : root.follow? path = some (.ofProcess (.restrict declarations body)))
      (there : declarations[index]? = some declaration) :
      root.follow? (path ++ [.declaration index]) = some (.ofDeclaration declaration) := by
    rw [Node.follow_step leads, Node.stepTo?, there, Option.map_some]
  cases reports with
  | declarationMissing leads missing asked =>
      exact .inr ⟨_, _, _, rfl, leads, missing, Failure.report_plain rfl⟩
  | uriMissing leads free =>
      rw [Failure.report_plain rfl]
      exact .inl ⟨_, declared leads free, .uriMissing⟩
  | uri leads bound differs =>
      rw [Failure.report_plain rfl]
      exact .inl ⟨_, declared leads bound, .uri differs⟩
  | uriPresent leads bound =>
      rw [Failure.report_plain rfl]
      exact .inl ⟨_, declared leads bound, .uriPresent⟩
  | kind leads differs =>
      rw [Failure.report_plain rfl]
      exact .inl ⟨_, leads, .kind differs⟩
  | notString leads differs =>
      rw [Failure.report_plain rfl]
      exact .inl ⟨_, leads, .notString differs⟩
  | string leads differs =>
      rw [Failure.report_plain rfl]
      exact .inl ⟨_, leads, .string differs⟩
  | actionMissing leads missing =>
      rw [Failure.report_plain rfl]
      exact .inl ⟨_, leads, .actionMissing missing⟩
  | operandMissing leads missing =>
      rw [Failure.report_plain rfl]
      exact .inl ⟨_, leads, .operandMissing missing⟩
  | int leads differs =>
      rw [Failure.report_comparison rfl]
      exact .inl ⟨_, leads, .int differs⟩
  | bool leads differs =>
      rw [Failure.report_comparison rfl]
      exact .inl ⟨_, leads, .bool differs⟩
  | actionCount leads differs =>
      rw [Failure.report_comparison rfl]
      exact .inl ⟨_, leads, .actionCount differs⟩
  | binds leads differs =>
      rw [Failure.report_comparison rfl]
      exact .inl ⟨_, leads, .binds differs⟩
  | operandCount leads differs =>
      rw [Failure.report_comparison rfl, operand_count_message, List.length_map]
      exact .inl ⟨_, leads, .operandCount differs⟩
  | names leads differs =>
      rw [Failure.report_comparison rfl]
      exact .inl ⟨_, leads, .names differs⟩

/-- A script that fails has a first check that does not hold, and its report names the node of that
check and shows what the node has. -/
theorem report_names_differing_node {script : Script} {tree : ProcessTree} {failure : Failure}
    (failed : run script tree = .error failure) :
    ∃ before check after, script.checks [] = before ++ check :: after ∧
      (∀ earlier ∈ before, earlier.Holds (.ofProcess tree)) ∧ ¬ check.Holds (.ofProcess tree) ∧
      (∀ path, ReportNames failure.report path ↔ path = failure.path) ∧
      ((∃ node ∈ (Node.ofProcess tree).listing,
          (Node.ofProcess tree).follow? failure.path = some node ∧
            check.requirement.Reported failure.path node failure.report) ∨
        ∃ index declarations body, failure.path = check.path ++ [.declaration index] ∧
          (Node.ofProcess tree).follow? check.path =
            some (.ofProcess (.restrict declarations body)) ∧
          declarations.length ≤ index ∧
          failure.report = plainReport failure.path "out of bounds") := by
  obtain ⟨result, runs, same⟩ := run_eq script tree
  cases result with
  | none => cases failed.symm.trans same
  | some first =>
      cases failed.symm.trans same
      obtain ⟨before, check, after, split, earlier, reports⟩ := runs.exists_first
      refine ⟨before, check, after, split, earlier, reports.fails, failure.report_names_iff, ?_⟩
      rcases reports.reported with ⟨node, leads, shown⟩ | missing
      · exact .inl ⟨node, Node.mem_listing_of_follow leads, leads, shown⟩
      · exact .inr missing

/-- A script for the channel of a receive that is the second operand below a restriction. -/
def channelScript : Script :=
  .restrict [.names ["x"], .body (.par [.operand 1 (.receive
    [.action 0 [.binds ["y"], .channel (.ground [.int 2])]])])]

def receivingTree : ProcessTree :=
  .restrict [⟨"x", none⟩] (.par [.nil, .receive [⟨⟨"y"⟩, .ground (.int 1)⟩] .nil])

def channelFailure : Failure := ⟨[.body, .operand 1, .action 0, .channel], .int 2 (.int 1)⟩

theorem report_names_nested_channel :
    run channelScript receivingTree = .error channelFailure ∧
      channelFailure.report = "assertion `left == right` failed: " ++
        "proc.body.procs[1].actions[0].chan: Expected int 2, found int 1" ++
        "\n  left: Int(1)\n right: Int(2)" ∧
      ∀ path, ReportNames channelFailure.report path ↔
        path = [.body, .operand 1, .action 0, .channel] := by
  have failed : run channelScript receivingTree = .error channelFailure := rfl
  obtain ⟨_, _, _, _, _, _, names, _⟩ := report_names_differing_node failed
  exact ⟨failed, by decide, names⟩

/-- No path stands at the very start where two values have been compared. -/
theorem comparison_report_starts_with_heading :
    ∃ failure, run (.ground [.int 5]) (.ground (.int 4)) = .error failure ∧
      ∀ path rest, failure.report ≠ describePath path ++ rest := by
  refine ⟨⟨[], .int 5 (.int 4)⟩, rfl, ?_⟩
  intro path rest same
  have chars := congrArg (fun text => text.toList.head?) same
  rw [Failure.report_comparison rfl] at chars
  simp [comparisonReport, comparisonHeading, describe_path_to_list] at chars

end RhoFrontend.Assertion
