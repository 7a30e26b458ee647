import RhoFrontend.Assertion.Script
import RhoFrontend.Proofs.Traversal

/-!
Assertion scripts as lists of checks. A check asks one thing of the node at one path, and a script
makes the same checks of every tree. A run goes through them in their order: as long as they hold it
goes on, and the first one that does not is reported.
-/

namespace RhoFrontend

namespace Node

open Assertion (Step Path)

/-- The node that a step leads to. A step that has no place at a node leads nowhere. -/
def stepTo? : Node → Step → Option Node
  | .ofProcess (.send channel _), .channel => some (.ofProcess channel)
  | .ofProcess (.send _ message), .message => some (.ofProcess message)
  | .ofProcess (.receive actions _), .action index => actions[index]?.map .ofAction
  | .ofProcess (.receive _ body), .body => some (.ofProcess body)
  | .ofProcess (.par operands), .operand index => operands[index]?.map .ofProcess
  | .ofProcess (.restrict declarations _), .declaration index =>
      declarations[index]?.map .ofDeclaration
  | .ofProcess (.restrict _ body), .body => some (.ofProcess body)
  | .ofProcess (.bundle body), .bundled => some (.ofProcess body)
  | .ofAction action, .channel => some (.ofProcess action.channel)
  | _, _ => none

/-- The node that a path leads to from here. -/
def follow? : Node → Path → Option Node
  | node, [] => some node
  | node, step :: deeper => (node.stepTo? step).bind fun inner => inner.follow? deeper

theorem follow_concat (node : Node) (path : Path) (step : Step) :
    node.follow? (path ++ [step]) = (node.follow? path).bind fun inner => inner.stepTo? step := by
  induction path generalizing node with
  | nil => simp [follow?]
  | cons first path induction =>
      rw [List.cons_append, follow?, follow?]
      cases node.stepTo? first with
      | none => rfl
      | some inner => exact induction inner

theorem follow_step {node inner : Node} {path : Path} (leads : node.follow? path = some inner)
    (step : Step) : node.follow? (path ++ [step]) = inner.stepTo? step := by
  rw [follow_concat, leads, Option.bind_some]

theorem mem_children_of_step {node inner : Node} {step : Step}
    (leads : node.stepTo? step = some inner) : inner ∈ node.children := by
  unfold stepTo? at leads
  split at leads
  case h_10 => cases leads
  case h_3 =>
    obtain ⟨action, found, rfl⟩ := Option.map_eq_some_iff.1 leads
    exact List.mem_append_left _ (List.mem_map_of_mem (List.mem_of_getElem? found))
  case h_5 =>
    obtain ⟨operand, found, rfl⟩ := Option.map_eq_some_iff.1 leads
    exact List.mem_map_of_mem (List.mem_of_getElem? found)
  case h_6 =>
    obtain ⟨declaration, found, rfl⟩ := Option.map_eq_some_iff.1 leads
    exact List.mem_append_left _ (List.mem_map_of_mem (List.mem_of_getElem? found))
  all_goals
    cases leads
    simp [children]

/-- What a path leads to is a node of the tree. -/
theorem mem_listing_of_follow {root node : Node} {path : Path}
    (leads : root.follow? path = some node) : node ∈ root.listing := by
  induction path generalizing root with
  | nil =>
      cases leads
      rw [listing_eq]
      exact List.mem_cons_self
  | cons step deeper induction =>
      obtain ⟨inner, first, later⟩ := Option.bind_eq_some_iff.1 leads
      rw [listing_eq]
      apply List.mem_cons_of_mem
      exact List.mem_flatMap_of_mem (mem_children_of_step first) (induction later)

end Node

namespace TextExpectation

/-- What is expected of a text. -/
def Met (actual : String) : TextExpectation → Prop
  | .equals text => actual = text
  | .startsWith text => text.toList <+: actual.toList
  | .contains text => text.toList <:+: actual.toList

theorem occurs_in_iff (part text : List Char) : occursIn part text = true ↔ part <:+: text := by
  induction text with
  | nil => simp [occursIn]
  | cons char rest induction =>
      rw [occursIn, Bool.or_eq_true, List.isPrefixOf_iff_prefix, induction, List.infix_cons_iff]

theorem accepts_iff (expected : TextExpectation) (actual : String) :
    expected.accepts actual = true ↔ expected.Met actual := by
  cases expected with
  | equals text => exact beq_iff_eq
  | startsWith text => exact List.isPrefixOf_iff_prefix
  | contains text => exact occurs_in_iff _ _

end TextExpectation

namespace Assertion

/-- What a check asks of a node. An index has to be there before what is at it can be asked. -/
inductive Requirement
  | kind (expected : NodeKind)
  | int (expected : Int64)
  | bool (expected : Bool)
  | string (expected : TextExpectation)
  | actionCount (expected : Nat)
  | hasAction (index : Nat)
  | binds (expected : List String)
  | operandCount (expected : Nat)
  | hasOperand (index : Nat)
  | names (expected : List String)
  | uri (index : Nat) (expected : String)
  | noUri (index : Nat)

structure Check where
  path : Path
  requirement : Requirement

def Requirement.Met (node : Node) : Requirement → Prop
  | .kind expected => node.kind = expected
  | .int expected => node = .ofProcess (.ground (.int expected))
  | .bool expected => node = .ofProcess (.ground (.bool expected))
  | .string expected => ∃ text, node = .ofProcess (.ground (.string text)) ∧ expected.Met text
  | .actionCount expected =>
      ∃ actions body, node = .ofProcess (.receive actions body) ∧ actions.length = expected
  | .hasAction index =>
      ∃ actions body, node = .ofProcess (.receive actions body) ∧ index < actions.length
  | .binds expected => ∃ action, node = .ofAction action ∧ action.pattern.boundNames = expected
  | .operandCount expected =>
      ∃ operands, node = .ofProcess (.par operands) ∧ operands.length = expected
  | .hasOperand index => ∃ operands, node = .ofProcess (.par operands) ∧ index < operands.length
  | .names expected => ∃ declarations body, node = .ofProcess (.restrict declarations body) ∧
      declarations.map Declaration.name = expected
  | .uri index expected => ∃ declarations body name,
      node = .ofProcess (.restrict declarations body) ∧
        declarations[index]? = some ⟨name, some expected⟩
  | .noUri index => ∃ declarations body name,
      node = .ofProcess (.restrict declarations body) ∧ declarations[index]? = some ⟨name, none⟩

namespace Requirement

variable {actions : List Action} {operands : List ProcessTree} {declarations : List Declaration}
  {body : ProcessTree} {value : Ground} {index : Nat}

theorem met_int {expected : Int64} :
    (int expected).Met (.ofProcess (.ground value)) ↔ value = .int expected := by
  simp [Met]

theorem met_bool {expected : Bool} :
    (bool expected).Met (.ofProcess (.ground value)) ↔ value = .bool expected := by
  simp [Met]

theorem met_string {expected : TextExpectation} :
    (string expected).Met (.ofProcess (.ground value)) ↔
      ∃ text, value = .string text ∧ expected.Met text := by
  simp [Met]

theorem met_action_count {expected : Nat} :
    (actionCount expected).Met (.ofProcess (.receive actions body)) ↔
      actions.length = expected := by
  simp [Met]

theorem met_has_action :
    (hasAction index).Met (.ofProcess (.receive actions body)) ↔ index < actions.length := by
  simp [Met]

theorem met_binds {action : Action} {expected : List String} :
    (binds expected).Met (.ofAction action) ↔ action.pattern.boundNames = expected := by
  simp [Met]

theorem met_operand_count {expected : Nat} :
    (operandCount expected).Met (.ofProcess (.par operands)) ↔ operands.length = expected := by
  simp [Met]

theorem met_has_operand :
    (hasOperand index).Met (.ofProcess (.par operands)) ↔ index < operands.length := by
  simp [Met]

theorem met_names {expected : List String} :
    (names expected).Met (.ofProcess (.restrict declarations body)) ↔
      declarations.map Declaration.name = expected := by
  simp [Met]

theorem declares_iff {uri : Option String} :
    (∃ others inner name,
        Node.ofProcess (.restrict declarations body) = .ofProcess (.restrict others inner) ∧
          others[index]? = some ⟨name, uri⟩) ↔
      (declarations.map Declaration.uri)[index]? = some uri := by
  rw [List.getElem?_map, Option.map_eq_some_iff]
  constructor
  · rintro ⟨_, _, name, same, there⟩
    cases same
    exact ⟨⟨name, uri⟩, there, rfl⟩
  · rintro ⟨⟨name, _⟩, there, same⟩
    cases same
    exact ⟨declarations, body, name, rfl, there⟩

theorem met_uri {expected : String} :
    (uri index expected).Met (.ofProcess (.restrict declarations body)) ↔
      (declarations.map Declaration.uri)[index]? = some (some expected) :=
  declares_iff

theorem met_no_uri :
    (noUri index).Met (.ofProcess (.restrict declarations body)) ↔
      (declarations.map Declaration.uri)[index]? = some none :=
  declares_iff

end Requirement

/-- The path leads to a node, and that is as required. -/
def Check.Holds (root : Node) (check : Check) : Prop :=
  ∃ node, root.follow? check.path = some node ∧ check.requirement.Met node

theorem Check.holds_iff {root node : Node} {path : Path} (leads : root.follow? path = some node)
    (requirement : Requirement) :
    Check.Holds root ⟨path, requirement⟩ ↔ requirement.Met node := by
  constructor
  · rintro ⟨other, found, met⟩
    cases leads.symm.trans found
    exact met
  · exact fun met => ⟨node, leads, met⟩

/-- What is reported of a check that does not hold. The path is that of the check, but a report about
a declaration goes one step further, also where there is none. -/
inductive Check.Reports (root : Node) : Check → Failure → Prop
  | kind {path : Path} {expected : NodeKind} {process : ProcessTree}
      (leads : root.follow? path = some (.ofProcess process)) (differs : process.kind ≠ expected) :
      Reports root ⟨path, .kind expected⟩ ⟨path, .kind expected process.kind⟩
  | int {path : Path} {expected : Int64} {value : Ground}
      (leads : root.follow? path = some (.ofProcess (.ground value)))
      (differs : value ≠ .int expected) :
      Reports root ⟨path, .int expected⟩ ⟨path, .int expected value⟩
  | bool {path : Path} {expected : Bool} {value : Ground}
      (leads : root.follow? path = some (.ofProcess (.ground value)))
      (differs : value ≠ .bool expected) :
      Reports root ⟨path, .bool expected⟩ ⟨path, .bool expected value⟩
  | notString {path : Path} {expected : TextExpectation} {value : Ground}
      (leads : root.follow? path = some (.ofProcess (.ground value)))
      (differs : ∀ text, value ≠ .string text) :
      Reports root ⟨path, .string expected⟩ ⟨path, .notString value⟩
  | string {path : Path} {expected : TextExpectation} {text : String}
      (leads : root.follow? path = some (.ofProcess (.ground (.string text))))
      (differs : ¬ expected.Met text) :
      Reports root ⟨path, .string expected⟩ ⟨path, .text expected text⟩
  | actionCount {path : Path} {expected : Nat} {actions : List Action} {body : ProcessTree}
      (leads : root.follow? path = some (.ofProcess (.receive actions body)))
      (differs : actions.length ≠ expected) :
      Reports root ⟨path, .actionCount expected⟩ ⟨path, .actionCount expected actions.length⟩
  | actionMissing {path : Path} {index : Nat} {actions : List Action} {body : ProcessTree}
      (leads : root.follow? path = some (.ofProcess (.receive actions body)))
      (missing : actions.length ≤ index) :
      Reports root ⟨path, .hasAction index⟩ ⟨path, .actionMissing index actions.length⟩
  | binds {path : Path} {expected : List String} {action : Action}
      (leads : root.follow? path = some (.ofAction action))
      (differs : action.pattern.boundNames ≠ expected) :
      Reports root ⟨path, .binds expected⟩ ⟨path, .boundNames expected action.pattern.boundNames⟩
  | operandCount {path : Path} {expected : Nat} {operands : List ProcessTree}
      (leads : root.follow? path = some (.ofProcess (.par operands)))
      (differs : operands.length ≠ expected) :
      Reports root ⟨path, .operandCount expected⟩
        ⟨path, .operandCount expected (operands.map ProcessTree.kind)⟩
  | operandMissing {path : Path} {index : Nat} {operands : List ProcessTree}
      (leads : root.follow? path = some (.ofProcess (.par operands)))
      (missing : operands.length ≤ index) :
      Reports root ⟨path, .hasOperand index⟩ ⟨path, .operandMissing index operands.length⟩
  | names {path : Path} {expected : List String} {declarations : List Declaration}
      {body : ProcessTree}
      (leads : root.follow? path = some (.ofProcess (.restrict declarations body)))
      (differs : declarations.map Declaration.name ≠ expected) :
      Reports root ⟨path, .names expected⟩
        ⟨path, .names expected (declarations.map Declaration.name)⟩
  | declarationMissing {path : Path} {index : Nat} {requirement : Requirement}
      {declarations : List Declaration} {body : ProcessTree}
      (leads : root.follow? path = some (.ofProcess (.restrict declarations body)))
      (missing : declarations.length ≤ index)
      (asked : requirement = .noUri index ∨ ∃ expected, requirement = .uri index expected) :
      Reports root ⟨path, requirement⟩ ⟨path ++ [.declaration index], .declarationMissing⟩
  | uriMissing {path : Path} {index : Nat} {name expected : String}
      {declarations : List Declaration} {body : ProcessTree}
      (leads : root.follow? path = some (.ofProcess (.restrict declarations body)))
      (free : declarations[index]? = some ⟨name, none⟩) :
      Reports root ⟨path, .uri index expected⟩
        ⟨path ++ [.declaration index], .uriMissing expected⟩
  | uri {path : Path} {index : Nat} {name expected found : String}
      {declarations : List Declaration} {body : ProcessTree}
      (leads : root.follow? path = some (.ofProcess (.restrict declarations body)))
      (bound : declarations[index]? = some ⟨name, some found⟩) (differs : found ≠ expected) :
      Reports root ⟨path, .uri index expected⟩
        ⟨path ++ [.declaration index], .text (.equals expected) found⟩
  | uriPresent {path : Path} {index : Nat} {name found : String}
      {declarations : List Declaration} {body : ProcessTree}
      (leads : root.follow? path = some (.ofProcess (.restrict declarations body)))
      (bound : declarations[index]? = some ⟨name, some found⟩) :
      Reports root ⟨path, .noUri index⟩ ⟨path ++ [.declaration index], .uriPresent found⟩

/-- Nothing is reported of a check that holds. -/
theorem Check.Reports.fails {root : Node} {check : Check} {failure : Failure}
    (reports : check.Reports root failure) : ¬ check.Holds root := by
  cases reports with
  | kind leads differs =>
      rw [Check.holds_iff leads]
      exact differs
  | int leads differs =>
      rw [Check.holds_iff leads, Requirement.met_int]
      exact differs
  | bool leads differs =>
      rw [Check.holds_iff leads, Requirement.met_bool]
      exact differs
  | notString leads differs =>
      rw [Check.holds_iff leads, Requirement.met_string]
      rintro ⟨text, same, -⟩
      exact differs text same
  | string leads differs =>
      rw [Check.holds_iff leads, Requirement.met_string]
      rintro ⟨text, same, met⟩
      cases same
      exact differs met
  | actionCount leads differs =>
      rw [Check.holds_iff leads, Requirement.met_action_count]
      exact differs
  | actionMissing leads missing =>
      rw [Check.holds_iff leads, Requirement.met_has_action]
      exact Nat.not_lt.2 missing
  | binds leads differs =>
      rw [Check.holds_iff leads, Requirement.met_binds]
      exact differs
  | operandCount leads differs =>
      rw [Check.holds_iff leads, Requirement.met_operand_count]
      exact differs
  | operandMissing leads missing =>
      rw [Check.holds_iff leads, Requirement.met_has_operand]
      exact Nat.not_lt.2 missing
  | names leads differs =>
      rw [Check.holds_iff leads, Requirement.met_names]
      exact differs
  | declarationMissing leads missing asked =>
      have nothing := List.getElem?_eq_none missing
      rcases asked with rfl | ⟨expected, rfl⟩
      · rw [Check.holds_iff leads, Requirement.met_no_uri, List.getElem?_map, nothing]
        exact nofun
      · rw [Check.holds_iff leads, Requirement.met_uri, List.getElem?_map, nothing]
        exact nofun
  | uriMissing leads free =>
      rw [Check.holds_iff leads, Requirement.met_uri, List.getElem?_map, free]
      exact nofun
  | uri leads bound differs =>
      rw [Check.holds_iff leads, Requirement.met_uri, List.getElem?_map, bound]
      intro same
      cases same
      exact differs rfl
  | uriPresent leads bound =>
      rw [Check.holds_iff leads, Requirement.met_no_uri, List.getElem?_map, bound]
      exact nofun

end Assertion

end RhoFrontend
