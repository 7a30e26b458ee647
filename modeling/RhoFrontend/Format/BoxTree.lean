import RhoFrontend.ProcessTree.Node

/-!
A drawing of a tree: a line for every node with its kind and label, and box connectors in front
that show which node it hangs from. Labels are cut short.
-/

namespace RhoFrontend

namespace BoxTree

def labelLimit : Nat := 30

def cut (label : List Char) : List Char :=
  if label.length > labelLimit then label.take labelLimit ++ ['.', '.', '.'] else label

/-- A node without a label shows its kind alone. -/
def line (node : Node) : List Char :=
  let label := node.label.toList
  node.kind.tag.toList ++ (if label.isEmpty then [] else ':' :: ' ' :: cut label) ++ ['\n']

/-- Sibling nodes right of a margin, each with everything under it. The margin goes on below every
sibling but the last. -/
def ofNodes (margin : List Char) : List Node → List Char
  | [] => []
  | [last] =>
      margin ++ ['└', '─', ' '] ++ line last ++ ofNodes (margin ++ [' ', ' ']) last.children
  | first :: rest =>
      margin ++ ['├', '─', ' '] ++ line first ++ ofNodes (margin ++ ['│', ' ']) first.children ++
        ofNodes margin rest
termination_by nodes => totalWeight Node.count nodes
decreasing_by
  · have := Node.count_eq last
    simp only [total_weight_cons, total_weight_nil]
    omega
  all_goals
    have := Node.count_eq first
    simp only [total_weight_cons]
    omega

def ofRoot (root : Node) : List Char := line root ++ ofNodes [] root.children

end BoxTree

namespace ProcessTree

def toBoxTree (process : ProcessTree) : String :=
  String.ofList (BoxTree.ofRoot (.ofProcess process))

end ProcessTree

end RhoFrontend
