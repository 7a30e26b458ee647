import Mathlib.Data.List.Forall2
import RhoFrontend.Format.BoxTree
import RhoFrontend.Proofs.Lines
import RhoFrontend.Proofs.Places
import RhoFrontend.Proofs.TagDump

/-!
What a box drawing shows of its tree. It has a line for every place, in the order of the walk, and
the marks on a line follow from the place: a column for every node on the way there, and the corner
or the tee of the node itself. So two drawings are equal only if the trees have the same shape and
each two nodes at one place have the same kind and, as far as it is drawn, the same label.
-/

namespace RhoFrontend

namespace Node

/-- The label as far as it is drawn: thirty characters, and dots where there are more. -/
def shortLabel (node : Node) : List Char :=
  node.label.toList.take 30 ++ if 30 < node.label.toList.length then ['.', '.', '.'] else []

/-- The kind of the node, and its label if it has one. -/
def heading (node : Node) : List Char :=
  node.kind.tag.toList ++ if node.label = "" then [] else ':' :: ' ' :: node.shortLabel

/-- Whether the node at a place is the last child of its parent. -/
def isLastAt (root : Node) (place : List Nat) : Bool :=
  match place.getLast?, root.parentAt? place with
  | some position, some parent => position + 1 == parent.children.length
  | _, _ => false

/-- The places of the nodes above a place, outermost first, without the root. -/
def placesAbove (place : List Nat) : List (List Nat) :=
  (List.range (place.length - 1)).map fun length => place.take (length + 1)

/-- The line of the node at a place. A node above it that has later siblings is shown as a bar,
because they are still to come. -/
def lineAt (root : Node) (place : List Nat) : List Char :=
  ((placesAbove place).flatMap fun above => if root.isLastAt above then [' ', ' '] else ['│', ' ']) ++
    ((if place = [] then [] else if root.isLastAt place then ['└', '─', ' '] else ['├', '─', ' ']) ++
      (root.nodeAt? place).toList.flatMap heading)

/-- The two nodes have the same shape, and nothing that is drawn tells nodes under them apart. -/
inductive LooksLike : Node → Node → Prop
  | intro {left right : Node} (kind : left.kind = right.kind)
      (label : left.shortLabel = right.shortLabel)
      (children : List.Forall₂ LooksLike left.children right.children) : LooksLike left right

/-- No label in the tree has a newline in it. -/
def Unbroken (root : Node) : Prop := ∀ node ∈ root.listing, '\n' ∉ node.label.toList

end Node

namespace BoxTree

/-- The mark in front of a node, a corner if the node is the last of its siblings. -/
def branch (last : Bool) : List Char := if last then ['└', '─', ' '] else ['├', '─', ' ']

/-- The column below a node that has other nodes under it. -/
def column (last : Bool) : List Char := if last then [' ', ' '] else ['│', ' ']

theorem line_eq_heading (node : Node) : line node = node.heading ++ ['\n'] := by
  have short : cut node.label.toList = node.shortLabel := by
    rw [cut, Node.shortLabel, labelLimit]
    split
    · rfl
    · next whole => rw [List.append_nil, List.take_of_length_le (Nat.le_of_not_lt whole)]
  rw [line, Node.heading, short]
  by_cases empty : node.label = ""
  · simp [empty]
  · have filled : node.label.toList.isEmpty = false := by simpa using empty
    simp [empty, filled]

/-- A sibling, everything under it, and the other siblings. -/
theorem of_nodes_cons (margin : List Char) (first : Node) (rest : List Node) :
    ofNodes margin (first :: rest) = margin ++ (branch rest.isEmpty ++ (first.heading ++ '\n' ::
      (ofNodes (margin ++ column rest.isEmpty) first.children ++ ofNodes margin rest))) := by
  cases rest with
  | nil =>
      rw [ofNodes, ofNodes, line_eq_heading]
      simp [branch, column]
  | cons second rest =>
      rw [ofNodes, line_eq_heading]
      · simp [branch, column]
      · exact List.cons_ne_nil second rest

theorem of_nodes_eq_flat_map (margin : List Char) (nodes : List Node) (position : Nat) :
    ofNodes margin nodes = (nodes.zipIdx position).flatMap fun each =>
      let last := each.2 + 1 == position + nodes.length
      margin ++ (branch last ++ (each.1.heading ++ '\n' ::
        ofNodes (margin ++ column last) each.1.children)) := by
  induction nodes generalizing position with
  | nil => rw [ofNodes, List.zipIdx_nil, List.flatMap_nil]
  | cons first rest induction =>
      have last : (position + 1 == position + (first :: rest).length) = rest.isEmpty := by
        cases rest <;> simp
      have later : position + 1 + rest.length = position + (first :: rest).length := by
        simp only [List.length_cons]
        omega
      rw [of_nodes_cons, induction (position + 1), List.zipIdx_cons, List.flatMap_cons]
      simp only [last, later, List.append_assoc, List.cons_append]

end BoxTree

/-! The lines, place by place. -/

namespace Node

open BoxTree (branch column)

section Child

variable {parent child : Node} {position : Nat}

theorem is_last_at_child (parent : Node) (position : Nat) :
    parent.isLastAt [position] = (position + 1 == parent.children.length) := rfl

theorem is_last_at_cons (here : parent.children[position]? = some child) {deeper : List Nat}
    (inside : deeper ≠ []) : parent.isLastAt (position :: deeper) = child.isLastAt deeper := by
  rw [isLastAt, isLastAt, parent_at_cons here inside, List.getLast?_cons_of_ne_nil inside]

theorem places_above_cons (position next : Nat) (deeper : List Nat) :
    placesAbove (position :: next :: deeper) =
      [position] :: (placesAbove (next :: deeper)).map (position :: ·) := by
  simp [placesAbove, List.range_succ_eq_map, Function.comp_def]

theorem ne_nil_of_above {place above : List Nat} (member : above ∈ placesAbove place) :
    above ≠ [] := by
  obtain ⟨length, inside, rfl⟩ := List.mem_map.1 member
  rintro empty
  rcases List.take_eq_nil_iff.1 empty with none | rfl
  · cases none
  · cases List.mem_range.1 inside

theorem line_at_child (here : parent.children[position]? = some child) :
    parent.lineAt [position] = branch (position + 1 == parent.children.length) ++ child.heading := by
  have alone : placesAbove [position] = [] := rfl
  rw [lineAt, alone, is_last_at_child, node_at_cons here, nodeAt?]
  simp [branch]

theorem line_at_cons (here : parent.children[position]? = some child) {deeper : List Nat}
    (inside : deeper ≠ []) : parent.lineAt (position :: deeper) =
      column (position + 1 == parent.children.length) ++ child.lineAt deeper := by
  obtain ⟨next, others, rfl⟩ := List.exists_cons_of_ne_nil inside
  rw [lineAt, lineAt, places_above_cons, List.flatMap_cons, List.flatMap_map,
    List.flatMap_congr fun above member => by
      rw [is_last_at_cons here (ne_nil_of_above member)],
    is_last_at_child, is_last_at_cons here inside, node_at_cons here]
  simp [column]

end Child

theorem ne_nil_of_places_from {position : Nat} {nodes : List Node} {place : List Nat}
    (member : place ∈ placesFrom position nodes) : place ≠ [] := by
  rw [places_from_eq] at member
  obtain ⟨each, -, inside⟩ := List.mem_flatMap.1 member
  obtain ⟨deeper, -, rfl⟩ := List.mem_map.1 inside
  exact List.cons_ne_nil _ _

/-- Under any margin, the lines below a node are those of its places. -/
theorem of_children_eq_lines (margin : List Char) (root : Node) :
    BoxTree.ofNodes margin root.children =
      (placesFrom 0 root.children).flatMap fun place => margin ++ (root.lineAt place ++ ['\n']) := by
  induction root using child_induction generalizing margin with
  | step root induction =>
      rw [BoxTree.of_nodes_eq_flat_map margin root.children 0, places_from_eq, List.flatMap_assoc]
      apply List.flatMap_congr
      rintro ⟨child, position⟩ member
      have here := List.mem_zipIdx_iff_getElem?.1 member
      have below := induction child (List.mem_of_getElem? here)
        (margin ++ column (position + 1 == root.children.length))
      have deeper : ((placesFrom 0 child.children).flatMap fun place =>
          margin ++ (root.lineAt (position :: place) ++ ['\n'])) =
          BoxTree.ofNodes (margin ++ column (position + 1 == root.children.length))
            child.children := by
        rw [below]
        apply List.flatMap_congr
        intro place inside
        rw [line_at_cons here (ne_nil_of_places_from inside)]
        simp only [List.append_assoc]
      rw [places, List.map_cons, List.flatMap_cons, List.flatMap_map, deeper, line_at_child here]
      simp only [List.append_assoc, List.cons_append, List.nil_append, Nat.zero_add]

theorem line_at_root (root : Node) : root.lineAt [] = root.heading := by
  simp [lineAt, placesAbove, nodeAt?]

theorem lines_of_root (root : Node) : BoxTree.ofRoot root =
    root.places.flatMap fun place => root.lineAt place ++ ['\n'] := by
  have below := root.of_children_eq_lines []
  simp only [List.nil_append] at below
  rw [BoxTree.ofRoot, BoxTree.line_eq_heading, places, List.flatMap_cons, line_at_root, below]

/-! A newline in a line comes from the label of its node. -/

theorem no_newline_in_short_label {node : Node} (free : '\n' ∉ node.label.toList) :
    '\n' ∉ node.shortLabel := by
  apply List.not_mem_append
  · exact fun member => free (List.mem_of_mem_take member)
  · split <;> decide

theorem short_label_eq_nil_iff (node : Node) : node.shortLabel = [] ↔ node.label = "" := by
  rw [shortLabel, List.append_eq_nil_iff, List.take_eq_nil_iff, String.toList_eq_nil_iff]
  constructor
  · rintro ⟨none | empty, -⟩
    · cases none
    · exact empty
  · intro empty
    simp [empty]

theorem count_newline_of_heading (node : Node) :
    node.heading.count '\n' = node.shortLabel.count '\n' := by
  have kind : node.kind.tag.toList.count '\n' = 0 := by
    generalize node.kind = kind
    cases kind <;> rfl
  rw [heading, List.count_append, kind, Nat.zero_add]
  split
  · next empty => rw [(short_label_eq_nil_iff node).2 empty]
  · rfl

theorem no_newline_in_heading {node : Node} (free : '\n' ∉ node.label.toList) :
    '\n' ∉ node.heading := by
  rw [← List.count_eq_zero, count_newline_of_heading, List.count_eq_zero]
  exact no_newline_in_short_label free

/-- Neither the margin nor the mark in front of a node has a newline. -/
theorem count_newline_of_line (root : Node) (place : List Nat) : (root.lineAt place).count '\n' =
    ((root.nodeAt? place).toList.flatMap shortLabel).count '\n' := by
  have margin : ((placesAbove place).flatMap fun above =>
      if root.isLastAt above then [' ', ' '] else ['│', ' ']).count '\n' = 0 := by
    rw [List.count_eq_zero, List.mem_flatMap]
    rintro ⟨above, -, inside⟩
    split at inside <;> revert inside <;> decide
  have mark : (if place = [] then [] else
      if root.isLastAt place then ['└', '─', ' '] else ['├', '─', ' ']).count '\n' = 0 := by
    split
    · rfl
    · split <;> rfl
  rw [lineAt, List.count_append, List.count_append, margin, mark, Nat.zero_add, Nat.zero_add,
    List.count_flatMap, List.count_flatMap]
  exact congrArg List.sum (List.map_congr_left fun node _ => count_newline_of_heading node)

theorem no_newline_in_line {root : Node} (unbroken : root.Unbroken) (place : List Nat) :
    '\n' ∉ root.lineAt place := by
  rw [← List.count_eq_zero, count_newline_of_line, List.count_eq_zero, List.mem_flatMap]
  rintro ⟨node, found, inside⟩
  have listed : node ∈ root.listing := mem_listing_of_place (Option.mem_toList.1 found)
  exact no_newline_in_short_label (unbroken node listed) inside

/-- The kind ends at the first colon, or with the line. -/
theorem heading_eq_iff {left right : Node} : left.heading = right.heading ↔
    left.kind = right.kind ∧ left.shortLabel = right.shortLabel := by
  have kindOf (node : Node) : node.heading.takeWhile (· != ':') = node.kind.tag.toList := by
    apply Lexeme.take_while_append
    · generalize node.kind = kind
      cases kind <;> simp [NodeKind.tag]
    · split <;> simp
  have empty := left.short_label_eq_nil_iff
  have otherEmpty := right.short_label_eq_nil_iff
  constructor
  · intro same
    have kind : left.kind = right.kind := by
      apply NodeKind.tag_injective
      rw [← String.toList_inj, ← kindOf, ← kindOf, same]
    refine ⟨kind, ?_⟩
    rw [heading, heading, kind] at same
    have labels := List.append_cancel_left same
    split at labels <;> split at labels
    · next none otherNone => rw [empty.2 none, otherEmpty.2 otherNone]
    · cases labels
    · cases labels
    · simpa using labels
  · rintro ⟨kind, label⟩
    have same : left.label = "" ↔ right.label = "" := by rw [← empty, ← otherEmpty, label]
    simp only [heading, kind, label, same]

theorem Unbroken.child {root child : Node} (unbroken : root.Unbroken)
    (member : child ∈ root.children) : child.Unbroken := by
  intro node inside
  apply unbroken
  rw [listing_eq]
  exact List.mem_cons_of_mem root (List.mem_flatMap_of_mem member inside)

theorem Unbroken.here {root : Node} (unbroken : root.Unbroken) : '\n' ∉ root.label.toList := by
  apply unbroken
  rw [listing_eq]
  exact List.mem_cons_self

end Node

/-! A drawing is read back from the top. Where the nodes under a node end is seen from what stands
at their margin. -/

namespace BoxTree

open Node (LooksLike Unbroken)

/-- The text does not go on with something that is drawn at the margin or right of it. -/
def EndsAt (margin rest : List Char) : Prop :=
  ∀ mark ∈ [' ', '│', '├', '└'], ¬ margin ++ [mark] <+: rest

theorem opens_of_nodes (margin : List Char) {nodes : List Node} (nonempty : nodes ≠ [])
    (rest : List Char) : ∃ mark ∈ ['├', '└'], margin ++ [mark] <+: ofNodes margin nodes ++ rest := by
  obtain ⟨first, others, rfl⟩ := List.exists_cons_of_ne_nil nonempty
  rw [of_nodes_cons, branch]
  split
  · exact ⟨'└', by decide, by simp⟩
  · exact ⟨'├', by decide, by simp⟩

theorem EndsAt.no_nodes {margin rest more : List Char} {nodes : List Node}
    (ends : EndsAt margin rest) (same : rest = ofNodes margin nodes ++ more) : nodes = [] := by
  by_contra nonempty
  obtain ⟨mark, isBranch, opens⟩ := opens_of_nodes margin nonempty more
  rw [← same] at opens
  exact ends mark (List.mem_cons_of_mem _ (List.mem_cons_of_mem _ isBranch)) opens

/-- What follows the nodes under a node is a sibling of it, or was already told from it. -/
theorem EndsAt.below {margin rest : List Char} (ends : EndsAt margin rest) (siblings : List Node) :
    EndsAt (margin ++ column siblings.isEmpty) (ofNodes margin siblings ++ rest) := by
  intro mark _ goesOn
  cases siblings with
  | nil =>
      rw [ofNodes, List.nil_append] at goesOn
      have blank : margin ++ [' '] <+: margin ++ column true ++ [mark] := by simp [column]
      exact ends ' ' List.mem_cons_self (blank.trans goesOn)
  | cons first others =>
      obtain ⟨other, isBranch, opens⟩ := opens_of_nodes margin (List.cons_ne_nil first others) rest
      have bar : margin ++ ['│'] <+: margin ++ column false ++ [mark] := by simp [column]
      have same := List.prefix_of_prefix_length_le opens (bar.trans goesOn) (by simp)
      have isBar : [other] = ['│'] :=
        List.append_cancel_left (same.eq_of_length (by simp))
      rw [List.cons.inj isBar |>.1] at isBranch
      revert isBranch
      decide

theorem line_cancel {left right rest otherRest : List Char} (free : '\n' ∉ left)
    (otherFree : '\n' ∉ right) (same : left ++ '\n' :: rest = right ++ '\n' :: otherRest) :
    left = right ∧ rest = otherRest := by
  have lines := congrArg (List.splitOn '\n') same
  rw [List.splitOn_append_cons_self_of_not_mem free,
    List.splitOn_append_cons_self_of_not_mem otherFree] at lines
  obtain rfl : left = right := (List.cons.inj lines).1
  exact ⟨rfl, (List.cons.inj (List.append_cancel_left same)).2⟩

theorem siblings_look_alike {margin leftRest rightRest : List Char} {lefts rights : List Node}
    (leftUnbroken : ∀ node ∈ lefts, node.Unbroken) (rightUnbroken : ∀ node ∈ rights, node.Unbroken)
    (leftEnds : EndsAt margin leftRest) (rightEnds : EndsAt margin rightRest)
    (same : ofNodes margin lefts ++ leftRest = ofNodes margin rights ++ rightRest) :
    List.Forall₂ LooksLike lefts rights ∧ leftRest = rightRest := by
  induction lefts using Node.sibling_induction generalizing margin rights leftRest rightRest with
  | none =>
      rw [ofNodes, List.nil_append] at same
      cases leftEnds.no_nodes same
      rw [ofNodes, List.nil_append] at same
      exact ⟨.nil, same⟩
  | some left lefts inside others =>
      cases rights with
      | nil =>
          rw [ofNodes, List.nil_append] at same
          cases rightEnds.no_nodes same.symm
      | cons right rights =>
          obtain ⟨leftHere, leftOthers⟩ := List.forall_mem_cons.1 leftUnbroken
          obtain ⟨rightHere, rightOthers⟩ := List.forall_mem_cons.1 rightUnbroken
          rw [of_nodes_cons, of_nodes_cons] at same
          simp only [List.append_assoc, List.cons_append] at same
          have marked := List.append_cancel_left same
          have last : lefts.isEmpty = rights.isEmpty := by
            cases isLast : lefts.isEmpty <;> cases otherLast : rights.isEmpty <;>
              first | rfl | simp [branch, isLast, otherLast] at marked
          rw [last] at marked
          have lines := List.append_cancel_left marked
          obtain ⟨heading, below⟩ := line_cancel (Node.no_newline_in_heading leftHere.here)
            (Node.no_newline_in_heading rightHere.here) lines
          obtain ⟨kind, label⟩ := Node.heading_eq_iff.1 heading
          obtain ⟨children, later⟩ := inside (fun _ => leftHere.child) (fun _ => rightHere.child)
            (last ▸ leftEnds.below lefts) (rightEnds.below rights) below
          obtain ⟨siblings, rest⟩ := others leftOthers rightOthers leftEnds rightEnds later
          exact ⟨.cons (.intro kind label children) siblings, rest⟩

theorem of_nodes_of_looks_like {lefts rights : List Node}
    (alike : List.Forall₂ LooksLike lefts rights) (margin : List Char) :
    ofNodes margin lefts = ofNodes margin rights := by
  induction lefts using Node.sibling_induction generalizing margin rights with
  | none =>
      cases alike
      rfl
  | some left lefts inside others =>
      cases alike with
      | @cons _ right _ rights here siblings =>
          obtain ⟨kind, label, children⟩ := here
          have last : lefts.isEmpty = rights.isEmpty := by cases siblings <;> rfl
          rw [of_nodes_cons, of_nodes_cons, last, Node.heading_eq_iff.2 ⟨kind, label⟩,
            inside children, others siblings]

theorem of_root_eq_iff {left right : Node} (leftUnbroken : left.Unbroken)
    (rightUnbroken : right.Unbroken) : ofRoot left = ofRoot right ↔ LooksLike left right := by
  simp only [ofRoot, line_eq_heading, List.append_assoc, List.singleton_append]
  constructor
  · intro same
    obtain ⟨heading, below⟩ := line_cancel (Node.no_newline_in_heading leftUnbroken.here)
      (Node.no_newline_in_heading rightUnbroken.here) same
    obtain ⟨kind, label⟩ := Node.heading_eq_iff.1 heading
    have ends : EndsAt [] [] := by simp [EndsAt]
    rw [← List.append_nil (ofNodes [] left.children),
      ← List.append_nil (ofNodes [] right.children)] at below
    obtain ⟨children, -⟩ := siblings_look_alike (fun _ => leftUnbroken.child)
      (fun _ => rightUnbroken.child) ends ends below
    exact .intro kind label children
  · rintro ⟨kind, label, children⟩
    rw [Node.heading_eq_iff.2 ⟨kind, label⟩, of_nodes_of_looks_like children]

end BoxTree

/-- Where no label has a newline, a drawing has one line for each node in the order of the walk, with
the marks that follow from the place of the node. So two drawings are equal exactly if the trees
have the same shape, with the same kinds and drawn labels in it. -/
theorem box_tree_shows_shape :
    (∀ process : ProcessTree, (Node.ofProcess process).Unbroken →
      ∃ places, (Node.ofProcess process).HasPlaces places ∧
        places.map (Node.ofProcess process).nodeAt? =
          (Node.ofProcess process).listing.map some ∧
        process.toBoxTree.toList.splitOn '\n' =
          places.map (Node.ofProcess process).lineAt ++ [[]]) ∧
      ∀ left right : ProcessTree, (Node.ofProcess left).Unbroken → (Node.ofProcess right).Unbroken →
        (left.toBoxTree = right.toBoxTree ↔
          (Node.ofProcess left).LooksLike (.ofProcess right)) := by
  constructor
  · intro process unbroken
    refine ⟨_, Node.has_places _, Node.map_node_at_places _, ?_⟩
    have lines : ∀ line ∈ (Node.ofProcess process).places.map (Node.ofProcess process).lineAt,
        '\n' ∉ line := List.forall_mem_map.2 fun place _ => Node.no_newline_in_line unbroken place
    rw [ProcessTree.toBoxTree, String.toList_ofList, Node.lines_of_root, ← split_lines lines,
      List.flatMap_map]
  · intro left right leftUnbroken rightUnbroken
    rw [ProcessTree.toBoxTree, ProcessTree.toBoxTree, String.ofList_inj]
    exact BoxTree.of_root_eq_iff leftUnbroken rightUnbroken

/-- A chain with a text in it that is too long to be drawn. -/
def longLabelTree (ending : String) : ProcessTree :=
  .par [.bundle (.ground (.string ("shown up to here, and then " ++ ending))), .nil]

private theorem long_label_drawn (ending : String) :
    BoxTree.ofRoot (.ofProcess (longLabelTree ending)) =
      "par\n├─ bundle\n│ └─ ground: string \"shown up to here, and ...\n└─ nil\n".toList := by
  simp [longLabelTree, BoxTree.ofRoot, BoxTree.ofNodes, BoxTree.line, BoxTree.cut,
    BoxTree.labelLimit, Node.children, Node.kind, ProcessTree.kind, NodeKind.tag, Node.label,
    Ground.type, GroundType.name, Ground.literal]

private theorem long_label_unbroken {ending : String} (free : '\n' ∉ ending.toList) :
    (Node.ofProcess (longLabelTree ending)).Unbroken := by
  intro node member
  simp only [longLabelTree, Node.listing_eq, Node.children, List.map_cons, List.map_nil,
    List.flatMap_cons, List.flatMap_nil, List.append_nil, List.cons_append, List.nil_append,
    List.mem_cons, List.not_mem_nil, or_false] at member
  rcases member with rfl | rfl | rfl | rfl <;>
    simp [Node.label, Ground.type, GroundType.name, Ground.literal, free]

theorem box_tree_shows_shape_cut_label :
    (Node.ofProcess (longLabelTree "é")).Unbroken ∧ (Node.ofProcess (longLabelTree "|")).Unbroken ∧
      (longLabelTree "é").toBoxTree = (longLabelTree "|").toBoxTree ∧
      (Node.ofProcess (longLabelTree "é")).LooksLike (.ofProcess (longLabelTree "|")) ∧
      ∃ places, (Node.ofProcess (longLabelTree "é")).HasPlaces places ∧
        places.map (Node.ofProcess (longLabelTree "é")).lineAt ++ [[]] =
          ["par".toList, "├─ bundle".toList, "│ └─ ground: string \"shown up to here, and ...".toList,
            "└─ nil".toList, []] := by
  have unbroken := long_label_unbroken (by decide : '\n' ∉ "é".toList)
  have otherUnbroken := long_label_unbroken (by decide : '\n' ∉ "|".toList)
  have same : (longLabelTree "é").toBoxTree = (longLabelTree "|").toBoxTree := by
    rw [ProcessTree.toBoxTree, ProcessTree.toBoxTree, long_label_drawn, long_label_drawn]
  obtain ⟨lines, shape⟩ := box_tree_shows_shape
  obtain ⟨places, all, -, split⟩ := lines _ unbroken
  refine ⟨unbroken, otherUnbroken, same, (shape _ _ unbroken otherUnbroken).1 same, places, all, ?_⟩
  rw [← split, ProcessTree.toBoxTree, String.toList_ofList, long_label_drawn]
  decide

end RhoFrontend
