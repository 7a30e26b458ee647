import RhoFrontend.ProcessTree.Basic
import RhoFrontend.Traversal

/-!
Every node of a process tree under one type: the processes, and the actions, patterns and declared
names between them, which are no processes but have their own place in a dump of the tree.
-/

namespace RhoFrontend

inductive NodeKind
  | nil
  | ground
  | send
  | receive
  | action
  | par
  | restrict
  | bundle
  | declaration
  | boundName
deriving DecidableEq, Repr

namespace NodeKind

/-- The name of the kind in serialized trees and dumps. -/
def tag : NodeKind → String
  | .nil => "nil"
  | .ground => "ground"
  | .send => "send"
  | .receive => "join"
  | .action => "action"
  | .par => "par"
  | .restrict => "new"
  | .bundle => "bundle"
  | .declaration => "variable"
  | .boundName => "variableP"

/-- The kinds of processes, in the order that numbers them. -/
def processKinds : List NodeKind := [.nil, .ground, .send, .receive, .par, .restrict, .bundle]

end NodeKind

inductive Node
  | ofProcess (process : ProcessTree)
  | ofAction (action : Action)
  | ofPattern (pattern : Pattern)
  | ofDeclaration (declaration : Declaration)
deriving DecidableEq

def ProcessTree.kind : ProcessTree → NodeKind
  | .nil => .nil
  | .ground _ => .ground
  | .send _ _ => .send
  | .receive _ _ => .receive
  | .par _ => .par
  | .restrict _ _ => .restrict
  | .bundle _ => .bundle

namespace Node

def kind : Node → NodeKind
  | .ofProcess process => process.kind
  | .ofAction _ => .action
  | .ofPattern _ => .boundName
  | .ofDeclaration _ => .declaration

def children : Node → List Node
  | .ofProcess .nil | .ofProcess (.ground _) | .ofPattern _ | .ofDeclaration _ => []
  | .ofProcess (.send channel message) => [.ofProcess channel, .ofProcess message]
  | .ofProcess (.receive actions body) => actions.map .ofAction ++ [.ofProcess body]
  | .ofProcess (.par operands) => operands.map .ofProcess
  | .ofProcess (.restrict declarations body) => declarations.map .ofDeclaration ++ [.ofProcess body]
  | .ofProcess (.bundle body) => [.ofProcess body]
  | .ofAction action => [.ofPattern action.pattern, .ofProcess action.channel]

/-- The node's own data in a few words, and nothing where it has none. -/
def label : Node → String
  | .ofProcess (.ground value) => value.type.name ++ " " ++ value.literal
  | .ofProcess (.restrict declarations _) =>
      String.intercalate ", " (declarations.map Declaration.name)
  | .ofDeclaration ⟨name, some uri⟩ => name ++ " `" ++ uri ++ "`"
  | .ofDeclaration ⟨name, none⟩ => name
  | .ofPattern pattern => pattern.name
  | .ofProcess _ | .ofAction _ => ""

/-- The label of a node that is shown alone. An action then stands for the names it binds. -/
def caption : Node → String
  | .ofAction action => String.intercalate ", " action.pattern.boundNames
  | node => node.label

end Node

mutual

def ProcessTree.nodeCount : ProcessTree → Nat
  | .nil | .ground _ => 1
  | .send channel message => 1 + channel.nodeCount + message.nodeCount
  | .receive actions body => 1 + Action.listNodeCount actions + body.nodeCount
  | .par operands => 1 + ProcessTree.listNodeCount operands
  | .restrict declarations body => 1 + declarations.length + body.nodeCount
  | .bundle body => 1 + body.nodeCount

def Action.listNodeCount : List Action → Nat
  | [] => 0
  | ⟨_, channel⟩ :: rest => 2 + channel.nodeCount + Action.listNodeCount rest

def ProcessTree.listNodeCount : List ProcessTree → Nat
  | [] => 0
  | process :: rest => process.nodeCount + ProcessTree.listNodeCount rest

end

namespace Node

def count : Node → Nat
  | .ofProcess process => process.nodeCount
  | .ofAction action => 2 + action.channel.nodeCount
  | .ofPattern _ | .ofDeclaration _ => 1

private theorem count_of_actions (actions : List Action) :
    totalWeight count (actions.map ofAction) = Action.listNodeCount actions := by
  induction actions with
  | nil => rfl
  | cons action rest ih =>
      obtain ⟨pattern, channel⟩ := action
      simp only [List.map_cons, total_weight_cons, ih, Action.listNodeCount, count]

private theorem count_of_processes (processes : List ProcessTree) :
    totalWeight count (processes.map ofProcess) = ProcessTree.listNodeCount processes := by
  induction processes with
  | nil => rfl
  | cons process rest ih =>
      simp only [List.map_cons, total_weight_cons, ih, ProcessTree.listNodeCount, count]

private theorem count_of_declarations (declarations : List Declaration) :
    totalWeight count (declarations.map ofDeclaration) = declarations.length := by
  induction declarations with
  | nil => rfl
  | cons declaration rest ih =>
      simp only [List.map_cons, total_weight_cons, ih, List.length_cons, count, Nat.add_comm]

theorem count_eq (node : Node) : node.count = 1 + totalWeight count node.children := by
  rcases node with process | action | pattern | declaration
  · cases process <;>
      simp [count, children, ProcessTree.nodeCount, count_of_actions, count_of_processes,
        count_of_declarations, Nat.add_assoc]
  · simp only [count, children, total_weight_cons, total_weight_nil]
    omega
  · rfl
  · rfl

/-- A child has fewer nodes than its parent, so a dump may recurse on children. -/
theorem count_lt_of_mem_children {node child : Node} (member : child ∈ node.children) :
    child.count < node.count := by
  have bound : child.count ≤ totalWeight count node.children := le_total_weight_of_mem member
  rw [count_eq node]
  omega

/-- The node and everything under it, in pre-order. -/
def listing (node : Node) : List Node :=
  visit children count (fun item => by rw [count_eq item]; omega) [node]

end Node

namespace ProcessTree

private theorem node_count_of_channels (actions : List Action) :
    totalWeight nodeCount (actions.map Action.channel) ≤ Action.listNodeCount actions := by
  induction actions with
  | nil => simp [Action.listNodeCount]
  | cons action rest ih =>
      obtain ⟨pattern, channel⟩ := action
      simp only [List.map_cons, total_weight_cons, Action.listNodeCount]
      omega

private theorem node_count_of_operands (operands : List ProcessTree) :
    totalWeight nodeCount operands = ProcessTree.listNodeCount operands := by
  induction operands with
  | nil => rfl
  | cons operand rest ih => simp only [total_weight_cons, ProcessTree.listNodeCount, ih]

theorem node_count_subprocesses_lt (process : ProcessTree) :
    totalWeight nodeCount process.subprocesses < process.nodeCount := by
  cases process with
  | receive actions body =>
      have bound := node_count_of_channels actions
      simp only [subprocesses, nodeCount, total_weight_append, total_weight_cons, total_weight_nil]
      omega
  | par operands =>
      simp only [subprocesses, nodeCount, node_count_of_operands]
      omega
  | _ =>
      simp only [subprocesses, nodeCount, total_weight_cons, total_weight_nil]
      omega

/-- The process and every process inside it, in pre-order. -/
def listing (process : ProcessTree) : List ProcessTree :=
  visit subprocesses nodeCount node_count_subprocesses_lt [process]

end ProcessTree

end RhoFrontend
