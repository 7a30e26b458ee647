import RhoFrontend.Assertion.TextExpectation
import RhoFrontend.ProcessTree.Node
import RhoFrontend.Text.Quoted

/-!
Failed assertions about a process tree: the path from the root to the node that differs, what
differs there, and the report of both.
-/

namespace RhoFrontend.Assertion

inductive Step
  | channel
  | message
  | body
  | bundled
  | action (index : Nat)
  | operand (index : Nat)
  | declaration (index : Nat)
deriving DecidableEq, Repr

namespace Step

def describe : Step → String
  | .channel => ".chan"
  | .message => ".message"
  | .body => ".body"
  | .bundled => ".proc"
  | .action index => s!".actions[{index}]"
  | .operand index => s!".procs[{index}]"
  | .declaration index => s!".vars[{index}]"

end Step

/-- Steps from the root, first step first. -/
abbrev Path := List Step

def describePath (path : Path) : String :=
  path.foldl (fun text step => text ++ step.describe) "proc"

inductive Difference
  | kind (expected found : NodeKind)
  | int (expected : Int64) (found : Ground)
  | bool (expected : Bool) (found : Ground)
  | notString (found : Ground)
  | text (expected : TextExpectation) (found : String)
  | actionCount (expected found : Nat)
  | actionMissing (index count : Nat)
  | boundNames (expected found : List String)
  | operandCount (expected : Nat) (found : List NodeKind)
  | operandMissing (index count : Nat)
  | names (expected found : List String)
  | declarationMissing
  | uriMissing (expected : String)
  | uriPresent (found : String)
deriving DecidableEq, Repr

structure Failure where
  path : Path
  difference : Difference
deriving DecidableEq, Repr

def describeValue : Ground → String
  | .int value => s!"Int({String.ofList (Integer.spelling value)})"
  | .string value => s!"String({Text.quoted value})"
  | .bool value => s!"Bool({value})"

def describeGround (value : Ground) : String := value.type.name ++ " " ++ value.literal

namespace Difference

def message : Difference → String
  | .kind expected found => s!"Expected {expected.tag}, found {found.tag}"
  | .int expected found =>
      s!"Expected int {(Ground.int expected).literal}, found {describeGround found}"
  | .bool expected found => s!"Expected bool {expected}, found {describeGround found}"
  | .notString found => s!"Expected string, found {describeGround found}"
  | .text expected found => expected.complaint found
  | .actionCount expected found => s!"Expected {expected} actions, found {found} actions"
  | .actionMissing index count =>
      s!"Action index {index} out of bounds (join has {count} actions)"
  | .boundNames expected found =>
      s!"Expected pattern to bind {Text.quotedList expected}, found {Text.quotedList found}"
  | .operandCount expected found =>
      let kinds := String.intercalate ", " (found.map NodeKind.tag)
      s!"Expected {expected} procs, found {found.length} procs: [{kinds}]"
  | .operandMissing index count =>
      s!"Proc index {index} out of bounds (par has {count} procs)"
  | .names expected found =>
      s!"Expected names {Text.quotedList expected}, found {Text.quotedList found}"
  | .declarationMissing => "out of bounds"
  | .uriMissing expected => s!"Expected uri '{expected}', found none"
  | .uriPresent found => s!"Expected no uri, found Some({Text.quoted found})"

/-- The two values of a comparison for equality, the found one first. -/
def compared? : Difference → Option (String × String)
  | .int expected found => some (describeValue found, describeValue (.int expected))
  | .bool expected found => some (describeValue found, describeValue (.bool expected))
  | .actionCount expected found => some (toString found, toString expected)
  | .operandCount expected found => some (toString found.length, toString expected)
  | .boundNames expected found | .names expected found =>
      some (Text.quotedList found, Text.quotedList expected)
  | _ => none

end Difference

namespace Failure

/-- The path and the difference. A comparison for equality also shows both of its values. -/
def report (failure : Failure) : String :=
  let message := s!"{describePath failure.path}: {failure.difference.message}"
  match failure.difference.compared? with
  | some (found, expected) =>
      s!"assertion `left == right` failed: {message}\n  left: {found}\n right: {expected}"
  | none => message

end Failure

end RhoFrontend.Assertion
