import RhoFrontend.ProcessTree.Composition

/-!
Trees built step by step on a stack, from nothing, with the constructors as the steps.
-/

namespace RhoFrontend

/-- A step takes its operands from the stack and leaves its result on it. Counts say how many
operands are taken; these and the channels of a receive are used in the order they were left. -/
inductive ConstructionStep
  | push (process : ProcessTree)
  | send
  | parallel
  | bundle
  | parallelOf (count : Nat)
  | spliced (count : Nat)
  | par (count : Nat)
  | receiveOn (names : List String)
  | restrictNames (names : List String)
  | restrict (declarations : List Declaration)
  | duplicate
  | subprocess (index : Nat)

namespace ConstructionStep

/-- So many items from the top of a stack in the order they were left, and the stack below. -/
def takeOperands? (count : Nat) (stack : List ProcessTree) :
    Option (List ProcessTree × List ProcessTree) :=
  if count ≤ stack.length then some ((stack.take count).reverse, stack.drop count) else none

/-- The stack after a step, top first, unless something that the step needs is not on it. -/
def run? (step : ConstructionStep) (stack : List ProcessTree) : Option (List ProcessTree) :=
  match step, stack with
  | .push process, stack => some (process :: stack)
  | .send, message :: channel :: rest => some (.send channel message :: rest)
  | .parallel, right :: left :: rest => some (.parallel left right :: rest)
  | .bundle, body :: rest => some (.bundle body :: rest)
  | .parallelOf count, stack =>
      (takeOperands? count stack).map fun (operands, rest) => .parallelOf operands :: rest
  | .spliced count, stack =>
      (takeOperands? count stack).map fun (operands, rest) =>
        .par (ProcessTree.spliced operands) :: rest
  | .par count, stack =>
      (takeOperands? count stack).map fun (operands, rest) => .par operands :: rest
  | .receiveOn names, body :: rest =>
      (takeOperands? names.length rest).map fun (channels, rest) =>
        .receiveOn (names.zip channels) body :: rest
  | .restrictNames names, body :: rest => some (.restrictNames names body :: rest)
  | .restrict declarations, body :: rest => some (.restrict declarations body :: rest)
  | .duplicate, top :: rest => some (top :: top :: rest)
  | .subprocess index, top :: rest => top.subprocesses[index]?.map (· :: rest)
  | _, _ => none

/-- The stack after all steps in their order. -/
def runAll? : List ConstructionStep → List ProcessTree → Option (List ProcessTree)
  | [], stack => some stack
  | step :: steps, stack => (step.run? stack).bind (runAll? steps)

end ConstructionStep

end RhoFrontend
