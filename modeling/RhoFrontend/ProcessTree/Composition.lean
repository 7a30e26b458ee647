import RhoFrontend.ProcessTree.Basic

/-!
Ways to compose processes so that parallel composition stays flat: `P | Q | R` is one composition
of three operands, however it was put together.
-/

namespace RhoFrontend.ProcessTree

def int (value : Int64) : ProcessTree := .ground (.int value)

def string (value : String) : ProcessTree := .ground (.string value)

def bool (value : Bool) : ProcessTree := .ground (.bool value)

/-- Receive on pairs of a bound name and a channel. -/
def receiveOn (bindings : List (String × ProcessTree)) (body : ProcessTree) : ProcessTree :=
  .receive (bindings.map fun (name, channel) => ⟨⟨name⟩, channel⟩) body

/-- Restrict names that are bound to no resource. -/
def restrictNames (names : List String) (body : ProcessTree) : ProcessTree :=
  .restrict (names.map fun name => ⟨name, none⟩) body

/-- What the process adds to a parallel composition: its operands if it is one, itself if not. -/
def operandsOf : ProcessTree → List ProcessTree
  | .par operands => operands
  | process => [process]

/-- Operands in order, with each parallel composition among them replaced by its own operands.
These are taken as they are, so one level is removed. -/
def spliced (operands : List ProcessTree) : List ProcessTree := operands.flatMap operandsOf

def parallel (left right : ProcessTree) : ProcessTree := .par (spliced [left, right])

/-- Any number of processes in parallel. One operand stays alone, and none make `nil`. -/
def parallelOf (operands : List ProcessTree) : ProcessTree :=
  match spliced operands with
  | [] => .nil
  | [process] => process
  | processes => .par processes

end RhoFrontend.ProcessTree
