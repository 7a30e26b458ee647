import RhoFrontend.ProcessTree.Node

/-!
The pre-order listing as a recursion on the tree: an item, and then the listings of its parts one
after another.
-/

namespace RhoFrontend

section Visit

variable {Item : Type} {parts : Item → List Item} {weight : Item → Nat}
  {lighter : ∀ item, totalWeight weight (parts item) < weight item}

theorem visit_nil : visit parts weight lighter [] = [] := by rw [visit]

/-- What is pending later is visited after everything under what is pending now. -/
theorem visit_append (left right : List Item) :
    visit parts weight lighter (left ++ right) =
      visit parts weight lighter left ++ visit parts weight lighter right := by
  induction left using visit.induct parts weight lighter with
  | case1 => rw [visit_nil, List.nil_append, List.nil_append]
  | case2 item pending induction =>
      rw [List.cons_append, visit, visit, ← List.append_assoc, induction, List.cons_append]

theorem visit_eq_flat_map (items : List Item) :
    visit parts weight lighter items =
      items.flatMap fun item => visit parts weight lighter [item] := by
  induction items with
  | nil => rw [visit_nil, List.flatMap_nil]
  | cons item items induction =>
      rw [← List.singleton_append, visit_append, induction, List.flatMap_append,
        List.flatMap_singleton]

theorem visit_singleton (item : Item) :
    visit parts weight lighter [item] =
      item :: (parts item).flatMap fun part => visit parts weight lighter [part] := by
  rw [visit, List.append_nil, visit_eq_flat_map]

/-- The visit of what is visited is a part of the whole visit. -/
theorem mem_visit_of_mem_visit {items : List Item} {part inner : Item}
    (inside : part ∈ visit parts weight lighter items)
    (deeper : inner ∈ visit parts weight lighter [part]) :
    inner ∈ visit parts weight lighter items := by
  induction items using visit.induct parts weight lighter with
  | case1 =>
      rw [visit_nil] at inside
      cases inside
  | case2 item pending induction =>
      rw [visit] at inside
      rcases List.mem_cons.1 inside with rfl | later
      · rw [← List.singleton_append, visit_append]
        exact List.mem_append_left _ deeper
      · rw [visit]
        exact List.mem_cons_of_mem item (induction later)

end Visit

namespace ProcessTree

theorem listing_eq (tree : ProcessTree) :
    tree.listing = tree :: tree.subprocesses.flatMap listing :=
  visit_singleton tree

theorem self_mem_listing (tree : ProcessTree) : tree ∈ tree.listing := by
  rw [listing_eq]
  exact List.mem_cons_self

theorem subprocess_mem_listing {tree part : ProcessTree} (member : part ∈ tree.subprocesses) :
    part ∈ tree.listing := by
  rw [listing_eq]
  exact List.mem_cons_of_mem tree (List.mem_flatMap_of_mem member part.self_mem_listing)

theorem mem_listing_trans {tree part inner : ProcessTree} (inside : part ∈ tree.listing)
    (deeper : inner ∈ part.listing) : inner ∈ tree.listing :=
  mem_visit_of_mem_visit inside deeper

end ProcessTree

namespace Node

theorem listing_eq (node : Node) : node.listing = node :: node.children.flatMap listing :=
  visit_singleton node

/-- What holds of a node whenever it holds of its children holds of every node. -/
theorem child_induction {holds : Node → Prop}
    (step : ∀ node : Node, (∀ child ∈ node.children, holds child) → holds node) (node : Node) :
    holds node := by
  apply step
  intro child member
  have lighter := count_lt_of_mem_children member
  exact child_induction step child
termination_by node.count

end Node

end RhoFrontend
