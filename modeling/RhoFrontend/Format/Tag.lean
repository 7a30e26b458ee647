import RhoFrontend.ProcessTree.Node

/-!
A dump of a tree in nested tags. The tag of a node is its kind, its text the label, and its children
stand inside it on lines of their own, indented by their depth.
-/

namespace RhoFrontend

namespace TagDump

/-- The characters that would be taken for markup are written by name. -/
def escapeChar (char : Char) : List Char :=
  match char with
  | '&' => "&amp;".toList
  | '<' => "&lt;".toList
  | '>' => "&gt;".toList
  | '"' => "&quot;".toList
  | '\'' => "&apos;".toList
  | _ => [char]

def escape (text : List Char) : List Char := text.flatMap escapeChar

def indentation (depth : Nat) : List Char := List.replicate (2 * depth) ' '

def openTag (node : Node) : List Char := '<' :: (node.kind.tag.toList ++ ['>'])

def closeTag (node : Node) : List Char := '<' :: '/' :: (node.kind.tag.toList ++ ['>', '\n'])

/-- Sibling nodes at a depth, each with everything under it. -/
def ofNodes (depth : Nat) : List Node → List Char
  | [] => []
  | node :: rest =>
      let inside :=
        if node.children.isEmpty then []
        else '\n' :: (ofNodes (depth + 1) node.children ++ indentation depth)
      indentation depth ++ openTag node ++ escape node.label.toList ++ inside ++ closeTag node ++
        ofNodes depth rest
termination_by nodes => totalWeight Node.count nodes
decreasing_by
  all_goals
    have := Node.count_eq node
    simp only [total_weight_cons]
    omega

end TagDump

namespace ProcessTree

def toTagDump (process : ProcessTree) : String :=
  String.ofList (TagDump.ofNodes 0 [.ofProcess process])

end ProcessTree

end RhoFrontend
