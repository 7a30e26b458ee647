import Mathlib.Algebra.BigOperators.Group.List.Basic
import RhoFrontend.Proofs.BoxTree
import RhoFrontend.Proofs.SourceFaults

/-!
How many lines the drawing of a tree takes. Each node has one, and each newline in what is drawn of
its label begins another one. Where a source was read as the tree, its names are identifiers, so
only a string or a uri can have such a newline, among the characters that are not cut away.
-/

namespace RhoFrontend

theorem IsIdentifier.no_newline {name : String} (identifier : IsIdentifier name) :
    '\n' ∉ name.toList := by
  obtain ⟨matched, -⟩ := identifier
  generalize letters : name.toList = text at matched
  cases matched with
  | identifier starts parts =>
      rintro (_ | ⟨_, later⟩)
      · exact absurd starts (by decide)
      · exact absurd (parts _ later) (by decide)

theorem no_newline_in_integer (value : Int64) : '\n' ∉ Integer.spelling value := by
  have digits : '\n' ∉ Nat.toDigits 10 value.toInt.natAbs := by
    intro member
    exact absurd (Nat.isDigit_of_mem_toDigits (by decide) (by decide) member) (by decide)
  rw [Integer.spelling, Integer.digitsOfValue]
  split
  · simpa using digits
  · exact digits

theorem no_newline_in_names {names : List (List Char)} (free : ∀ name ∈ names, '\n' ∉ name) :
    '\n' ∉ [',', ' '].intercalate names := by
  induction names with
  | nil => exact List.not_mem_nil
  | cons first rest induction =>
      obtain ⟨head, others⟩ := List.forall_mem_cons.1 free
      cases rest with
      | nil => rwa [List.intercalate_singleton]
      | cons second rest =>
          rw [List.intercalate_cons_cons]
          exact List.not_mem_append (List.not_mem_append head (by decide)) (induction others)

/-- Between an opening and an ending without newlines, a cut keeps the newlines that come early. -/
theorem count_newline_of_cut {opening ending : List Char} (first : '\n' ∉ opening)
    (last : '\n' ∉ ending) (content : List Char) (limit : Nat) :
    ((opening ++ (content ++ ending)).take limit).count '\n' =
      (content.take (limit - opening.length)).count '\n' := by
  have opens : (opening.take limit).count '\n' = 0 :=
    List.count_eq_zero.2 fun member => first (List.mem_of_mem_take member)
  have ends : (ending.take (limit - opening.length - content.length)).count '\n' = 0 :=
    List.count_eq_zero.2 fun member => last (List.mem_of_mem_take member)
  rw [List.take_append, List.count_append, opens, List.take_append, List.count_append, ends,
    Nat.zero_add, Nat.add_zero]

namespace Node

/-- The newlines in the line of a node. The opening of a literal leaves room for twenty-two
characters of a text, and the name before it and two marks take room from a uri. -/
def lineBreaks : Node → Nat
  | .ofProcess (.ground (.string content)) => (content.toList.take 22).count '\n'
  | .ofDeclaration ⟨name, some uri⟩ => (uri.toList.take (28 - name.toList.length)).count '\n'
  | _ => 0

/-- All names under the node are identifiers, and its own are. -/
def WellNamed : Node → Prop
  | .ofProcess process => ProcessTree.Everywhere ProcessTree.WellNamed process
  | .ofAction action =>
      IsIdentifier action.pattern.name ∧
        ProcessTree.Everywhere ProcessTree.WellNamed action.channel
  | .ofPattern pattern => IsIdentifier pattern.name
  | .ofDeclaration declaration => declaration.WellNamed

theorem WellNamed.child {node child : Node} (named : node.WellNamed)
    (member : child ∈ node.children) : child.WellNamed := by
  cases node with
  | ofProcess process =>
      obtain ⟨here, inside⟩ := ProcessTree.everywhere_iff.1 named
      cases process with
      | nil | ground => cases member
      | send channel message =>
          simp only [children, List.mem_cons, List.not_mem_nil, or_false] at member
          rcases member with rfl | rfl
          · exact inside channel (by simp [ProcessTree.subprocesses])
          · exact inside message (by simp [ProcessTree.subprocesses])
      | receive actions body =>
          simp only [children, List.mem_append, List.mem_map, List.mem_singleton] at member
          rcases member with ⟨action, among, rfl⟩ | rfl
          · exact ⟨here.2 action among, inside _ (ProcessTree.channel_mem_subprocesses among)⟩
          · exact inside body ProcessTree.body_mem_subprocesses
      | par operands =>
          obtain ⟨operand, among, rfl⟩ := List.mem_map.1 member
          exact inside operand among
      | restrict declarations body =>
          simp only [children, List.mem_append, List.mem_map, List.mem_singleton] at member
          rcases member with ⟨declaration, among, rfl⟩ | rfl
          · exact here.2 declaration among
          · exact inside body List.mem_cons_self
      | bundle body =>
          rw [List.mem_singleton.1 member]
          exact inside body List.mem_cons_self
  | ofAction action =>
      simp only [children, List.mem_cons, List.not_mem_nil, or_false] at member
      rcases member with rfl | rfl
      · exact named.1
      · exact named.2
  | ofPattern | ofDeclaration => cases member

theorem WellNamed.listed {root : Node} (named : root.WellNamed) :
    ∀ node ∈ root.listing, node.WellNamed := by
  induction root using child_induction with
  | step root induction =>
      intro node member
      rw [listing_eq] at member
      rcases List.mem_cons.1 member with rfl | later
      · exact named
      · obtain ⟨child, between, inside⟩ := List.mem_flatMap.1 later
        exact induction child between (named.child between) node inside

theorem count_newline_of_short_label (node : Node) :
    node.shortLabel.count '\n' = (node.label.toList.take 30).count '\n' := by
  have dots : (if 30 < node.label.toList.length then ['.', '.', '.'] else []).count '\n' = 0 := by
    split <;> rfl
  rw [shortLabel, List.count_append, dots, Nat.add_zero]

theorem line_breaks_of_well_named {node : Node} (named : node.WellNamed) :
    node.shortLabel.count '\n' = node.lineBreaks := by
  have free (plain : '\n' ∉ node.label.toList) : node.shortLabel.count '\n' = 0 :=
    List.count_eq_zero.2 (no_newline_in_short_label plain)
  cases node with
  | ofProcess process =>
      cases process with
      | ground literal =>
          cases literal with
          | int value =>
              apply free
              simpa [label, Ground.type, GroundType.name, Ground.literal] using
                no_newline_in_integer value
          | string content =>
              have shown : (ofProcess (.ground (.string content))).label.toList =
                  "string \"".toList ++ (content.toList ++ ['"']) := by
                simp [label, Ground.type, GroundType.name, Ground.literal]
              rw [count_newline_of_short_label, shown,
                count_newline_of_cut (by decide) (by decide)]
              rfl
          | bool value =>
              apply free
              cases value <;> decide
      | restrict declarations body =>
          apply free
          have identifiers := (ProcessTree.everywhere_iff.1 named).1.2
          rw [label, String.toList_intercalate, List.map_map]
          apply no_newline_in_names
          rw [List.forall_mem_map]
          exact fun declaration member => (identifiers declaration member).1.no_newline
      | nil | send | receive | par | bundle => exact free List.not_mem_nil
  | ofAction action => exact free List.not_mem_nil
  | ofPattern pattern => exact free (IsIdentifier.no_newline named)
  | ofDeclaration declaration =>
      obtain ⟨name, uri⟩ := declaration
      have identifier := named.1.no_newline
      cases uri with
      | none => exact free identifier
      | some uri =>
          have shown : (ofDeclaration ⟨name, some uri⟩).label.toList =
              name.toList ++ [' ', '\x60'] ++ (uri.toList ++ ['\x60']) := by
            simp [label]
          have opening : '\n' ∉ name.toList ++ [' ', '\x60'] :=
            List.not_mem_append identifier (by decide)
          have room : 30 - (name.toList ++ [' ', '\x60']).length = 28 - name.toList.length := by
            rw [List.length_append, List.length_cons, List.length_singleton]
            omega
          rw [count_newline_of_short_label, shown, count_newline_of_cut opening (by decide), room]
          rfl

/-- Each node takes a line, and another one for each newline drawn in it. -/
theorem count_newline_of_root (root : Node) : (BoxTree.ofRoot root).count '\n' =
    (root.listing.map fun node => node.shortLabel.count '\n' + 1).sum := by
  let lines (found : Option Node) : Nat :=
    (found.map fun node => node.shortLabel.count '\n' + 1).getD 0
  have each : ∀ place ∈ root.places,
      (root.lineAt place ++ ['\n']).count '\n' = lines (root.nodeAt? place) := by
    intro place member
    obtain ⟨node, here⟩ := Option.isSome_iff_exists.1 ((root.mem_places_iff place).1 member)
    rw [List.count_append, count_newline_of_line, here, Option.toList, List.flatMap_singleton]
    rfl
  calc (BoxTree.ofRoot root).count '\n'
      = (root.places.map fun place => (root.lineAt place ++ ['\n']).count '\n').sum := by
        rw [lines_of_root, List.count_flatMap]
        rfl
    _ = ((root.places.map root.nodeAt?).map lines).sum := by
        rw [List.map_map]
        exact congrArg List.sum (List.map_congr_left each)
    _ = (root.listing.map fun node => node.shortLabel.count '\n' + 1).sum := by
        rw [map_node_at_places, List.map_map]
        rfl

theorem well_named_of_parse {options : Options} {source : String} {tree : ProcessTree}
    (parsed : ProcessTree.parse options source = .ok tree) : (ofProcess tree).WellNamed := by
  have printable := (ProcessTree.exists_reading_iff options).1 ⟨source, parsed⟩
  exact (ProcessTree.printable_iff.1 printable).2

end Node

/-- The drawing of a source's tree has a line for each node, and one more for each newline that a
string has among its first twenty-two characters, or a declared uri among as many as its name leaves
of twenty-eight. So the lines are as many as the nodes exactly if there is no such newline. -/
theorem drawing_breaks_at_early_newlines (options : Options) (source : String)
    (tree : ProcessTree) (parsed : ProcessTree.parse options source = .ok tree) :
    tree.toBoxTree.toList.count '\n' = (Node.ofProcess tree).listing.length +
        ((Node.ofProcess tree).listing.map Node.lineBreaks).sum ∧
      (tree.toBoxTree.toList.count '\n' = (Node.ofProcess tree).listing.length ↔
        ∀ node ∈ (Node.ofProcess tree).listing, node.lineBreaks = 0) := by
  have named := (Node.well_named_of_parse parsed).listed
  have lines : tree.toBoxTree.toList.count '\n' = (Node.ofProcess tree).listing.length +
      ((Node.ofProcess tree).listing.map Node.lineBreaks).sum := by
    rw [ProcessTree.toBoxTree, String.toList_ofList, Node.count_newline_of_root,
      List.map_congr_left fun node member => by
        rw [Node.line_breaks_of_well_named (named node member)],
      List.sum_map_add, List.map_const', List.sum_replicate_nat, Nat.mul_one, Nat.add_comm]
  refine ⟨lines, ?_⟩
  rw [lines, Nat.add_eq_left, List.sum_eq_zero_iff_forall_eq_nat, List.forall_mem_map]

/-- The newline of the uri is drawn, and that of the text comes too late. -/
theorem drawing_breaks_at_early_newlines_of_uri :
    ∃ tree,
      ProcessTree.parse {} "new x(`u\n`) in \x7b \"a text with its newline\n\" \x7d" = .ok tree ∧
      (Node.ofProcess tree).listing.length = 3 ∧ tree.toBoxTree.toList.count '\n' = 3 + 1 := by
  have parsed : ProcessTree.parse {} "new x(`u\n`) in \x7b \"a text with its newline\n\" \x7d" =
      .ok (.restrict [⟨"x", some "u\n"⟩] (.ground (.string "a text with its newline\n"))) := by cbv
  refine ⟨_, parsed, ?_, ?_⟩
  · simp [Node.listing_eq, Node.children]
  · rw [(drawing_breaks_at_early_newlines _ _ _ parsed).1]
    simp [Node.listing_eq, Node.children, Node.lineBreaks]

/-- The tree is one node, and its drawing is two lines. -/
theorem string_with_newline_is_drawn_on_two_lines :
    ∃ tree, ProcessTree.parse {} "\"a\nb\"" = .ok tree ∧
      tree.toBoxTree = "ground: string \"a\nb\"\n" ∧
      (Node.ofProcess tree).listing.length = 1 ∧ tree.toBoxTree.toList.count '\n' = 2 := by
  have parsed : ProcessTree.parse {} "\"a\nb\"" = .ok (.ground (.string "a\nb")) := by cbv
  have drawn : ProcessTree.toBoxTree (.ground (.string "a\nb")) = "ground: string \"a\nb\"\n" := by
    simp [ProcessTree.toBoxTree, BoxTree.ofRoot, BoxTree.ofNodes, BoxTree.line, BoxTree.cut,
      BoxTree.labelLimit, Node.children, Node.kind, ProcessTree.kind, NodeKind.tag, Node.label,
      Ground.type, GroundType.name, Ground.literal]
  refine ⟨_, parsed, drawn, ?_, ?_⟩
  · simp [Node.listing_eq, Node.children]
  · rw [drawn]
    decide

end RhoFrontend
