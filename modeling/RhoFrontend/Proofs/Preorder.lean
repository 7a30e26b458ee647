import Mathlib.Data.List.Basic
import RhoFrontend.Proofs.Traversal

/-!
Walks that keep a stack of what is still to be visited. Such a walk ends, and what it has visited
then is the pre-order listing that recursion on the parts defines. The walk over all nodes of a tree
and the walk over its processes know different parts of an item, but visit the processes in the same
order.
-/

namespace RhoFrontend

/-- A walk in progress. The end of the stack is its top, and the latest visit comes last. -/
structure Walk (Item : Type) where
  stack : List Item
  visited : List Item

section Walks

variable {Item : Type} {parts : Item → List Item} {weight : Item → Nat}
  {lighter : ∀ item, totalWeight weight (parts item) < weight item}

/-- The item, and then the listing of each of its parts, first to last. -/
def preorder (parts : Item → List Item) (weight : Item → Nat)
    (lighter : ∀ item, totalWeight weight (parts item) < weight item) (item : Item) : List Item :=
  item :: (parts item).attach.flatMap fun part => preorder parts weight lighter part.1
termination_by weight item
decreasing_by exact Nat.lt_of_le_of_lt (le_total_weight_of_mem part.2) (lighter item)

theorem preorder_eq (item : Item) : preorder parts weight lighter item =
    item :: (parts item).flatMap (preorder parts weight lighter) := by
  rw [preorder, List.flatMap_subtype (g := preorder parts weight lighter) fun _ _ => rfl,
    List.unattach_attach]

/-- Every pending item is listed with all that is under it before the next one is. -/
theorem visit_eq_preorders (pending : List Item) : visit parts weight lighter pending =
    pending.flatMap (preorder parts weight lighter) := by
  induction pending using visit.induct parts weight lighter with
  | case1 => rw [visit_nil, List.flatMap_nil]
  | case2 item pending induction =>
      rw [visit, induction, List.flatMap_append, List.flatMap_cons, preorder_eq item,
        List.cons_append]

theorem visit_eq_preorder (item : Item) :
    visit parts weight lighter [item] = preorder parts weight lighter item := by
  rw [visit_eq_preorders, List.flatMap_singleton]

namespace Walk

def start (item : Item) : Walk Item := ⟨[item], []⟩

/-- One round visits the item on top of the stack and puts its parts there instead, the last one
first, so that the first one is next. There is none for an empty stack. -/
def round (parts : Item → List Item) (walk : Walk Item) : Option (Walk Item) :=
  walk.stack.getLast?.map fun item =>
    ⟨walk.stack.dropLast ++ (parts item).reverse, walk.visited ++ [item]⟩

/-- Rounds lead to an empty stack, and these are the items visited by then. -/
inductive Ends (parts : Item → List Item) : Walk Item → List Item → Prop
  | finished {walk : Walk Item} (exhausted : walk.round parts = none) : Ends parts walk walk.visited
  | more {walk next : Walk Item} {visited : List Item} (step : walk.round parts = some next)
      (later : Ends parts next visited) : Ends parts walk visited

theorem round_empty (visited : List Item) :
    (⟨([] : List Item).reverse, visited⟩ : Walk Item).round parts = none := rfl

/-- Read from its top, the stack is the list of what is pending, and the parts of an item come
before all that was pending already. -/
theorem round_pending (item : Item) (pending visited : List Item) :
    (⟨(item :: pending).reverse, visited⟩ : Walk Item).round parts =
      some ⟨(parts item ++ pending).reverse, visited ++ [item]⟩ := by
  simp [round]

theorem ends_of_pending (lighter : ∀ item, totalWeight weight (parts item) < weight item)
    (pending visited : List Item) :
    Ends parts ⟨pending.reverse, visited⟩ (visited ++ visit parts weight lighter pending) := by
  induction pending using visit.induct parts weight lighter generalizing visited with
  | case1 =>
      rw [visit_nil, List.append_nil]
      exact .finished (round_empty visited)
  | case2 item pending induction =>
      apply Ends.more (round_pending item pending visited)
      have later := induction (visited ++ [item])
      rw [visit]
      rwa [List.append_assoc, List.singleton_append] at later

/-- A walk has one way to go on. -/
theorem Ends.unique {walk : Walk Item} {left right : List Item} (one : Ends parts walk left)
    (other : Ends parts walk right) : left = right := by
  induction one with
  | finished exhausted =>
      cases other with
      | finished => rfl
      | more step =>
          rw [exhausted] at step
          cases step
  | more step later induction =>
      cases other with
      | finished exhausted =>
          rw [step] at exhausted
          cases exhausted
      | more otherStep otherLater =>
          rw [step] at otherStep
          cases otherStep
          exact induction otherLater

theorem ends_start_iff (lighter : ∀ item, totalWeight weight (parts item) < weight item)
    (item : Item) (visited : List Item) :
    Ends parts (start item) visited ↔ visited = visit parts weight lighter [item] := by
  have ends : Ends parts (start item) (visit parts weight lighter [item]) :=
    ends_of_pending lighter [item] []
  constructor
  · exact fun other => other.unique ends
  · rintro rfl
    exact ends

end Walk

end Walks

namespace Node

theorem parts_lighter (node : Node) : totalWeight count node.children < node.count := by
  rw [count_eq node]
  omega

/-- The node, and then the listing of each of its children. -/
def preorder (node : Node) : List Node := RhoFrontend.preorder children count parts_lighter node

/-- What is kept of a node where only processes count. -/
def process? : Node → Option ProcessTree
  | .ofProcess process => some process
  | .ofAction _ | .ofPattern _ | .ofDeclaration _ => none

/-- The processes that a node leads to without passing another process. -/
def nearest : Node → List ProcessTree
  | .ofProcess process => [process]
  | .ofAction action => [action.channel]
  | .ofPattern _ | .ofDeclaration _ => []

/-- Between a process and its subprocesses there is nothing but nodes that are no processes. -/
theorem nearest_of_children (process : ProcessTree) :
    (ofProcess process).children.flatMap nearest = process.subprocesses := by
  cases process with
  | receive actions body =>
      simp only [children, ProcessTree.subprocesses, List.flatMap_append, List.flatMap_map, nearest,
        List.flatMap_singleton, List.append_cancel_right_eq]
      exact List.map_eq_flatMap.symm
  | restrict declarations body =>
      simp [children, ProcessTree.subprocesses, nearest, List.flatMap_map]
  | par operands => simp [children, ProcessTree.subprocesses, nearest, List.flatMap_map]
  | _ => rfl

theorem processes_of_listing (node : Node) :
    node.listing.filterMap process? = node.nearest.flatMap ProcessTree.listing := by
  induction node using child_induction with
  | step node induction =>
      have below : (node.children.flatMap listing).filterMap process? =
          (node.children.flatMap nearest).flatMap ProcessTree.listing := by
        rw [List.filterMap_flatMap, List.flatMap_assoc]
        exact List.flatMap_congr induction
      rw [listing_eq]
      cases node with
      | ofProcess process =>
          have kept : process? (ofProcess process) = some process := rfl
          rw [List.filterMap_cons_some kept, below, nearest_of_children, nearest,
            List.flatMap_singleton, ← ProcessTree.listing_eq]
      | ofAction action =>
          have dropped : process? (ofAction action) = none := rfl
          rw [List.filterMap_cons_none dropped, below]
          rfl
      | ofPattern | ofDeclaration => rfl

end Node

namespace ProcessTree

/-- The process, and then the listing of each of its subprocesses. -/
def preorder (process : ProcessTree) : List ProcessTree :=
  RhoFrontend.preorder subprocesses nodeCount node_count_subprocesses_lt process

end ProcessTree

/-- Both walks of a tree end, each with the pre-order listing of what it walks over, and the
processes among all nodes are those that the walk over processes visits, in the same order. -/
theorem walks_visit_in_preorder (tree : ProcessTree) :
    (∀ visited, Walk.Ends Node.children (.start (.ofProcess tree)) visited ↔
        visited = (Node.ofProcess tree).listing) ∧
      (Node.ofProcess tree).listing = (Node.ofProcess tree).preorder ∧
      (∀ visited, Walk.Ends ProcessTree.subprocesses (.start tree) visited ↔
        visited = tree.listing) ∧
      tree.listing = tree.preorder ∧
      (Node.ofProcess tree).listing.filterMap Node.process? = tree.listing := by
  refine ⟨?_, visit_eq_preorder _, ?_, visit_eq_preorder _, ?_⟩
  · exact Walk.ends_start_iff Node.parts_lighter (.ofProcess tree)
  · exact Walk.ends_start_iff ProcessTree.node_count_subprocesses_lt tree
  · rw [Node.processes_of_listing, Node.nearest, List.flatMap_singleton]

end RhoFrontend
