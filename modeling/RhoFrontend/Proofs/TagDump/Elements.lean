import RhoFrontend.Proofs.TagDump.Markup
import RhoFrontend.Proofs.Traversal

/-!
The tags of a dump and what a reader makes of them: an element for every node, with its kind, its
label and the elements of its children.
-/

namespace RhoFrontend

/-- The element has the kind of the node for its name, the label of the node as its text, and inside
it an element for each child. -/
inductive Markup.Element.Shows : Element → Node → Prop
  | intro {element : Element} {node : Node} (name : element.name = node.kind.tag)
      (label : element.label = node.label.toList)
      (inside : List.Forall₂ Shows element.inside node.children) : Shows element node

namespace TagDump

open Markup

/-- What stands in front of sibling nodes at a depth, or what follows if there are none. -/
def lead (depth : Nat) (nodes : List Node) (after : List Char) : List Char :=
  if nodes.isEmpty then after else indentation depth

/-- What stands between the label of a node at a depth and its first child. -/
def gap (depth : Nat) (children : List Node) : List Char :=
  if children.isEmpty then [] else '\n' :: indentation (depth + 1)

/-- The tags of sibling nodes at a depth, with what follows the last of them. -/
def tags (depth : Nat) (nodes : List Node) (after : List Char) : List Tag :=
  match nodes with
  | [] => []
  | node :: rest =>
      ⟨false, node.kind.tag, escape node.label.toList ++ gap depth node.children⟩ ::
        (tags (depth + 1) node.children (indentation depth) ++
          ⟨true, node.kind.tag, '\n' :: lead depth rest after⟩ :: tags depth rest after)
termination_by totalWeight Node.count nodes
decreasing_by
  all_goals
    have := Node.count_eq node
    simp only [total_weight_cons]
    omega

theorem of_nodes_eq_write (depth : Nat) (nodes : List Node) (after : List Char) :
    ofNodes depth nodes ++ after = lead depth nodes after ++ Tag.write (tags depth nodes after) := by
  fun_induction tags depth nodes after with
  | case1 depth after => simp [ofNodes, lead, Tag.write]
  | case2 depth after node rest children siblings =>
      have inner : (if node.children.isEmpty then []
          else '\n' :: (ofNodes (depth + 1) node.children ++ indentation depth)) =
          gap depth node.children ++
            Tag.write (tags (depth + 1) node.children (indentation depth)) := by
        cases found : node.children with
        | nil => simp [gap, tags, Tag.write]
        | cons child others =>
            rw [found] at children
            simp [children, gap, lead]
      rw [ofNodes]
      simp only [inner, List.append_assoc, siblings]
      simp [lead, openTag, closeTag, Tag.write, Tag.body]

theorem kind_plain (kind : NodeKind) :
    ∀ char ∈ kind.tag.toList, char ≠ '<' ∧ char ≠ '>' ∧ char ≠ '/' := by
  cases kind <;> simp [NodeKind.tag]

theorem no_bracket_in_indentation (depth : Nat) : '<' ∉ indentation depth := by
  intro member
  exact absurd (List.eq_of_mem_replicate member) (by decide)

theorem no_bracket_in_gap (depth : Nat) (children : List Node) : '<' ∉ gap depth children := by
  unfold gap
  split
  · exact List.not_mem_nil
  · rw [List.mem_cons, not_or]
    exact ⟨by decide, no_bracket_in_indentation (depth + 1)⟩

theorem no_bracket_in_lead (depth : Nat) (nodes : List Node) {after : List Char}
    (free : '<' ∉ after) : '<' ∉ lead depth nodes after := by
  unfold lead
  split
  · exact free
  · exact no_bracket_in_indentation depth

theorem tags_plain (depth : Nat) (nodes : List Node) {after : List Char} (free : '<' ∉ after) :
    ∀ tag ∈ tags depth nodes after, tag.Plain := by
  fun_induction tags depth nodes after with
  | case1 depth after => exact List.forall_mem_nil _
  | case2 depth after node rest children siblings =>
      have opening : '<' ∉ escape node.label.toList ++ gap depth node.children :=
        List.not_mem_append (no_bracket_in_escape _) (no_bracket_in_gap depth node.children)
      have closing : '<' ∉ '\n' :: lead depth rest after := by
        rw [List.mem_cons, not_or]
        exact ⟨by decide, no_bracket_in_lead depth rest free⟩
      refine List.forall_mem_cons.2 ⟨⟨kind_plain _, opening⟩, ?_⟩
      refine List.forall_mem_append.2 ⟨children (no_bracket_in_indentation depth), ?_⟩
      exact List.forall_mem_cons.2 ⟨⟨kind_plain _, closing⟩, siblings free⟩

/-- Each node has its opening tag where the walk comes to it. -/
theorem opening_tags (depth : Nat) (nodes : List Node) (after : List Char) :
    Tag.opened (tags depth nodes after) =
      (nodes.flatMap Node.listing).map fun node => node.kind.tag := by
  rw [Tag.opened]
  fun_induction tags depth nodes after with
  | case1 depth after => rfl
  | case2 depth after node rest children siblings =>
      rw [List.flatMap_cons, Node.listing_eq]
      simp [children, siblings]

theorem drop_indentation (label : List Char) (depth : Nat) :
    (label ++ '\n' :: indentation depth).rdropWhile (· == ' ') = label ++ ['\n'] := by
  rw [indentation]
  induction 2 * depth with
  | zero => exact List.rdropWhile_concat_neg _ _ _ (by decide)
  | succ width induction =>
      rw [List.replicate_succ', ← List.cons_append, ← List.append_assoc,
        List.rdropWhile_concat_pos _ _ _ rfl, induction]

/-- The label is found again in its text, whether it ends in blanks of its own or not. -/
theorem label_of_text (name : String) (label : List Char) (depth : Nat) {inside : List Element}
    {children : List Node} (same : inside.isEmpty = children.isEmpty) :
    Element.label ⟨name, escape label ++ gap depth children, inside⟩ = label := by
  rw [Element.label, gap, same]
  cases children.isEmpty with
  | true =>
      rw [if_pos rfl, if_pos rfl, List.append_nil, unescape_escape]
  | false =>
      rw [if_neg Bool.false_ne_true, if_neg Bool.false_ne_true, drop_indentation,
        List.dropLast_concat, unescape_escape]

theorem is_empty_of_forall₂ {elements : List Element} {nodes : List Node}
    (each : List.Forall₂ Element.Shows elements nodes) : elements.isEmpty = nodes.isEmpty := by
  cases each <;> rfl

/-- Whatever is open around them, the tags of some nodes give an element for each, and leave the
stack as it was. -/
theorem exists_elements (depth : Nat) (nodes : List Node) (after : List Char) :
    ∃ elements, List.Forall₂ Element.Shows elements nodes ∧
      ∀ reader, (tags depth nodes after).foldlM Reader.step reader = some (reader.add elements) := by
  fun_induction tags depth nodes after with
  | case1 depth after =>
      refine ⟨[], .nil, fun reader => ?_⟩
      rw [List.foldlM_nil, Reader.add, List.append_nil]
      rfl
  | case2 depth after node rest children siblings =>
      obtain ⟨inside, showsInside, readInside⟩ := children
      obtain ⟨others, showsOthers, readOthers⟩ := siblings
      -- The opening tag starts an empty list of elements, which the children fill. The closing tag
      -- finds its own opening tag on top of the stack again.
      let element : Element :=
        ⟨node.kind.tag, escape node.label.toList ++ gap depth node.children, inside⟩
      have shown : element.Shows node :=
        .intro rfl (label_of_text _ _ depth (is_empty_of_forall₂ showsInside)) showsInside
      refine ⟨element :: others, .cons shown showsOthers, fun reader => ?_⟩
      simp [List.foldlM_cons, List.foldlM_append, Reader.step, readInside, readOthers, Reader.add,
        element]

end TagDump

end RhoFrontend
