import Mathlib.Data.List.Forall2
import RhoFrontend.Proofs.Printing.Tokens
import RhoFrontend.Proofs.TagDump.Elements

/-!
What a tag dump says about its tree. It is well bracketed, its elements show the nodes in the order
of the walk, and no other tree has the same dump. Where a declared name ends and its uri begins does
not follow from the label of the declaration, but it does together with the label of the
restriction.
-/

namespace RhoFrontend

open Markup

theorem Integer.spelling_injective {left right : Int64}
    (same : Integer.spelling left = Integer.spelling right) : left = right := by
  have leftRead := Piece.lexemes_eq_token_iff.2 (Token.integer_reads_back left)
  have rightRead := Piece.lexemes_eq_token_iff.2 (Token.integer_reads_back right)
  rw [Token.spelling, same, ← Token.spelling, rightRead] at leftRead
  cases leftRead
  rfl

theorem NodeKind.tag_injective {left right : NodeKind} (same : left.tag = right.tag) :
    left = right := by
  cases left <;> cases right <;> first | rfl | simp [NodeKind.tag] at same

theorem Ground.eq_of_literal {left right : Ground} (type : left.type = right.type)
    (literal : left.literal = right.literal) : left = right := by
  cases left <;> cases right <;> cases type
  · next left right => rw [Integer.spelling_injective (String.ofList_injective literal)]
  · next left right =>
      simp only [Ground.literal] at literal
      rw [(String.append_right_inj _).1 ((String.append_left_inj _).1 literal)]
  · next left right =>
      cases left <;> cases right <;> first | rfl | simp [Ground.literal] at literal

theorem Ground.eq_of_label {left right : Ground}
    (same : (Node.ofProcess (.ground left)).label = (Node.ofProcess (.ground right)).label) :
    left = right := by
  simp only [Node.label] at same
  have type : left.type = right.type := by
    have first := congrArg (fun text => text.toList.head?) same
    cases left <;> cases right <;> first | rfl | simp [Ground.type, GroundType.name] at first
  rw [type] at same
  exact Ground.eq_of_literal type ((String.append_right_inj _).1 same)

/-! Declared names. -/

namespace Declaration

/-- What the label of a declaration has behind the name. -/
def uriText : Option String → List Char
  | none => []
  | some uri => ' ' :: '\x60' :: (uri.toList ++ ['\x60'])

/-- What joined names have behind the first one, if these are the others. -/
def laterNames : List Declaration → List Char
  | [] => []
  | next :: rest => ',' :: ' ' :: (next.name.toList ++ laterNames rest)

theorem label_eq (declaration : Declaration) : (Node.ofDeclaration declaration).label.toList =
    declaration.name.toList ++ uriText declaration.uri := by
  obtain ⟨name, _ | uri⟩ := declaration
  · rw [Node.label, uriText, List.append_nil]
  · simp [Node.label, uriText]

theorem joined_names (first : Declaration) (rest : List Declaration) :
    (String.intercalate ", " ((first :: rest).map name)).toList =
      first.name.toList ++ laterNames rest := by
  rw [String.toList_intercalate, List.map_map]
  induction rest generalizing first with
  | nil => simp [laterNames]
  | cons next rest induction =>
      rw [List.map_cons, List.map_cons, List.intercalate_cons_cons, ← List.map_cons, induction]
      simp [laterNames]

theorem uri_text_injective {left right : Option String} (same : uriText left = uriText right) :
    left = right := by
  cases left <;> cases right
  · rfl
  · cases same
  · cases same
  · next left right =>
      have texts : left.toList ++ ['\x60'] = right.toList ++ ['\x60'] := by simpa [uriText] using same
      rw [String.toList_inj.1 (List.append_singleton_inj.1 texts).1]

/-- A name cannot go on where the other ends: it would have to go on both with a blank, as the label
does, and with a comma, as the joined names do. -/
theorem no_longer_name {name more : List Char} {uri otherUri : Option String}
    {later otherLater : List Declaration}
    (labels : name ++ uriText uri = name ++ more ++ uriText otherUri)
    (names : name ++ laterNames later = name ++ more ++ laterNames otherLater) : more = [] := by
  rw [List.append_assoc] at labels names
  have blank := List.append_cancel_left labels
  have comma := List.append_cancel_left names
  cases more with
  | nil => rfl
  | cons char more =>
      cases uri with
      | none => cases blank
      | some uri =>
          cases later with
          | nil => cases comma
          | cons next rest =>
              have isBlank : ' ' = char := List.head_eq_of_cons_eq blank
              have isComma : ',' = char := List.head_eq_of_cons_eq comma
              rw [← isBlank] at isComma
              exact absurd isComma (by decide)

theorem names_eq {left right : List Char} {leftUri rightUri : Option String}
    {leftLater rightLater : List Declaration}
    (labels : left ++ uriText leftUri = right ++ uriText rightUri)
    (names : left ++ laterNames leftLater = right ++ laterNames rightLater) : left = right := by
  obtain ⟨more, rfl, -⟩ | ⟨more, rfl, -⟩ := List.append_eq_append_iff.1 labels
  · rw [no_longer_name labels names, List.append_nil]
  · rw [no_longer_name labels.symm names.symm, List.append_nil]

theorem eq_of_later_names {left right : List Declaration}
    (labels : List.Forall₂ (fun left right =>
      (Node.ofDeclaration left).label = (Node.ofDeclaration right).label) left right)
    (names : laterNames left = laterNames right) : left = right := by
  induction labels with
  | nil => rfl
  | @cons left right lefts rights label _ induction =>
      rw [← String.toList_inj, label_eq, label_eq] at label
      have behind : left.name.toList ++ laterNames lefts =
          right.name.toList ++ laterNames rights := by simpa [laterNames] using names
      have name := names_eq label behind
      rw [name] at label behind
      have uri := uri_text_injective (List.append_cancel_left label)
      have others := induction (List.append_cancel_left behind)
      obtain ⟨leftName, leftUri⟩ := left
      obtain ⟨rightName, rightUri⟩ := right
      obtain rfl : leftName = rightName := String.toList_inj.1 name
      obtain rfl : leftUri = rightUri := uri
      rw [others]

end Declaration

/-! Nodes that one element shows. -/

namespace Node

/-- The nodes are the same, or declarations of which only the labels are known to be. -/
inductive Alike : Node → Node → Prop
  | same (node : Node) : Alike node node
  | declared {left right : Declaration}
      (label : (ofDeclaration left).label = (ofDeclaration right).label) :
      Alike (ofDeclaration left) (ofDeclaration right)

theorem Alike.process {left right : ProcessTree} (alike : Alike (ofProcess left) (ofProcess right)) :
    left = right := by
  cases alike
  rfl

theorem Alike.action {left right : Action} (alike : Alike (ofAction left) (ofAction right)) :
    left = right := by
  cases alike
  rfl

theorem Alike.declaration {left right : Declaration}
    (alike : Alike (ofDeclaration left) (ofDeclaration right)) :
    (ofDeclaration left).label = (ofDeclaration right).label := by
  cases alike with
  | same => rfl
  | declared label => exact label

theorem items_eq_of_alike {Item : Type} {node : Item → Node} {lefts rights : List Item}
    (alone : ∀ {left right : Item}, Alike (node left) (node right) → left = right)
    (each : List.Forall₂ Alike (lefts.map node) (rights.map node)) : lefts = rights := by
  rw [List.forall₂_map_left_iff, List.forall₂_map_right_iff] at each
  rw [← List.forall₂_eq_eq_eq]
  exact each.imp fun _ _ alike => alone alike

theorem alike_concat_iff {lefts rights : List Node} {left right : Node} :
    List.Forall₂ Alike (lefts ++ [left]) (rights ++ [right]) ↔
      List.Forall₂ Alike lefts rights ∧ Alike left right := by
  rw [← List.forall₂_reverse_iff, List.reverse_concat, List.reverse_concat, List.forall₂_cons,
    List.forall₂_reverse_iff, and_comm]

end Node

open Node (Alike items_eq_of_alike alike_concat_iff)

theorem declarations_eq_of_alike {left right : List Declaration} {body otherBody : ProcessTree}
    (label : (Node.ofProcess (.restrict left body)).label =
      (Node.ofProcess (.restrict right otherBody)).label)
    (each : List.Forall₂ Alike (left.map Node.ofDeclaration) (right.map Node.ofDeclaration)) :
    left = right := by
  rw [List.forall₂_map_left_iff, List.forall₂_map_right_iff] at each
  apply Declaration.eq_of_later_names (each.imp fun _ _ alike => alike.declaration)
  cases each with
  | nil => rfl
  | cons =>
      rw [Node.label, Node.label, ← String.toList_inj, Declaration.joined_names,
        Declaration.joined_names] at label
      simp [Declaration.laterNames, label]

/-- A process is made of its kind, its label and its children. -/
theorem ProcessTree.eq_of_children_alike {left right : ProcessTree}
    (kind : left.kind = right.kind)
    (label : (Node.ofProcess left).label = (Node.ofProcess right).label)
    (children : List.Forall₂ Alike (Node.ofProcess left).children (Node.ofProcess right).children) :
    left = right := by
  cases left <;> cases right <;> cases kind
  · rfl
  · rw [Ground.eq_of_label label]
  · simp only [Node.children, List.forall₂_cons] at children
    obtain ⟨channel, message, -⟩ := children
    rw [channel.process, message.process]
  · obtain ⟨actions, body⟩ := alike_concat_iff.1 children
    rw [items_eq_of_alike Alike.action actions, body.process]
  · rw [items_eq_of_alike Alike.process children]
  · obtain ⟨declarations, body⟩ := alike_concat_iff.1 children
    rw [declarations_eq_of_alike label declarations, body.process]
  · simp only [Node.children, List.forall₂_cons] at children
    rw [children.1.process]

theorem Node.alike_of_children {left right : Node} (kind : left.kind = right.kind)
    (label : left.label = right.label)
    (children : List.Forall₂ Alike left.children right.children) : Alike left right := by
  cases left with
  | ofProcess process =>
      cases right with
      | ofProcess other =>
          rw [ProcessTree.eq_of_children_alike kind label children]
          exact .same _
      | _ => cases process <;> cases kind
  | ofAction action =>
      cases right with
      | ofProcess other => cases other <;> cases kind
      | ofAction other =>
          obtain ⟨pattern, channel⟩ := action
          obtain ⟨otherPattern, otherChannel⟩ := other
          simp only [Node.children, List.forall₂_cons] at children
          obtain ⟨patterns, channels, -⟩ := children
          cases patterns
          rw [channels.process]
          exact .same _
      | _ => cases kind
  | ofPattern pattern =>
      cases right with
      | ofProcess other => cases other <;> cases kind
      | ofPattern other =>
          obtain ⟨name⟩ := pattern
          obtain ⟨otherName⟩ := other
          cases label
          exact .same _
      | _ => cases kind
  | ofDeclaration declaration =>
      cases right with
      | ofProcess other => cases other <;> cases kind
      | ofDeclaration other => exact .declared label
      | _ => cases kind

private theorem siblings_alike {elements : List Element} {lefts rights : List Node}
    (first : List.Forall₂ Element.Shows elements lefts)
    (second : List.Forall₂ Element.Shows elements rights)
    (each : ∀ left ∈ lefts, ∀ (right : Node) (element : Element),
      element.Shows left → element.Shows right → Alike left right) :
    List.Forall₂ Alike lefts rights := by
  induction first generalizing rights with
  | nil =>
      cases second
      exact .nil
  | @cons element left elements lefts here _ induction =>
      cases second with
      | @cons _ right _ rights there others =>
          have head := each left List.mem_cons_self right element here there
          have tail := induction others fun left member =>
            each left (List.mem_cons_of_mem _ member)
          exact .cons head tail

theorem alike_of_shown {element : Element} {left right : Node} (first : element.Shows left)
    (second : element.Shows right) : Alike left right := by
  -- Equality is too much to carry through the induction: the element of a declaration alone leaves
  -- open where its name ends.
  induction left using Node.child_induction generalizing element right with
  | step left induction =>
      obtain ⟨leftName, leftLabel, leftInside⟩ := first
      obtain ⟨rightName, rightLabel, rightInside⟩ := second
      have children : List.Forall₂ Alike left.children right.children := by
        apply siblings_alike leftInside rightInside
        intro child member other element here there
        exact induction child member here there
      apply Node.alike_of_children
      · exact NodeKind.tag_injective (leftName.symm.trans rightName)
      · exact String.toList_inj.1 (leftLabel.symm.trans rightLabel)
      · exact children

theorem exists_root (process : ProcessTree) : ∃ tags root,
    Tag.ofText? process.toTagDump.toList = some tags ∧ Element.ofTags? tags = some [root] ∧
      root.Shows (.ofProcess process) ∧
        Tag.opened tags = (Node.ofProcess process).listing.map fun node => node.kind.tag := by
  obtain ⟨elements, shown, read⟩ := TagDump.exists_elements 0 [.ofProcess process] []
  cases shown with
  | @cons root _ _ _ shown none =>
      cases none
      refine ⟨TagDump.tags 0 [.ofProcess process] [], root, ?_, ?_, shown, ?_⟩
      · have text := TagDump.of_nodes_eq_write 0 [.ofProcess process] []
        have start : TagDump.lead 0 [.ofProcess process] [] = [] := rfl
        rw [List.append_nil, start, List.nil_append] at text
        rw [ProcessTree.toTagDump, String.toList_ofList, text]
        exact Tag.of_text (TagDump.tags_plain 0 _ List.not_mem_nil)
      · rw [Element.ofTags?, read]
        rfl
      · rw [TagDump.opening_tags, List.flatMap_singleton]

/-- A dump is well bracketed. It has one outermost element, which shows the process with everything
under it, and its opening tags are the kinds of the nodes in the order of the walk. So no two
processes have the same dump, whatever characters their names and texts are made of. -/
theorem tag_dump_loses_nothing :
    (∀ process : ProcessTree, ∃ tags root,
        Tag.ofText? process.toTagDump.toList = some tags ∧ Element.ofTags? tags = some [root] ∧
          root.Shows (.ofProcess process) ∧
            Tag.opened tags = (Node.ofProcess process).listing.map fun node => node.kind.tag) ∧
      Function.Injective ProcessTree.toTagDump := by
  refine ⟨exists_root, fun left right same => ?_⟩
  obtain ⟨leftTags, leftRoot, leftText, leftRead, leftShown, -⟩ := exists_root left
  obtain ⟨rightTags, rightRoot, rightText, rightRead, rightShown, -⟩ := exists_root right
  rw [same, rightText] at leftText
  cases leftText
  rw [rightRead] at leftRead
  cases leftRead
  exact (alike_of_shown leftShown rightShown).process

end RhoFrontend
