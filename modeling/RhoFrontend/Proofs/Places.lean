import Mathlib.Data.List.Lex
import RhoFrontend.Proofs.Traversal

/-!
Places in a tree. A place says which child to take at every step from the root. The walk comes to
the places in their lexicographic order: to a node before everything under it, and to that before
the next sibling.
-/

namespace RhoFrontend

namespace Node

/-- The node at a place, if the tree has one there. -/
def nodeAt? : Node → List Nat → Option Node
  | node, [] => some node
  | node, position :: deeper => node.children[position]?.bind fun child => child.nodeAt? deeper

/-- The node that the one at a place is a child of. -/
def parentAt? (root : Node) (place : List Nat) : Option Node :=
  if place = [] then none else root.nodeAt? place.dropLast

/-- The places of sibling nodes and of everything under them, where the first sibling has this
position. -/
def placesFrom (position : Nat) : List Node → List (List Nat)
  | [] => []
  | node :: rest =>
      [position] :: ((placesFrom 0 node.children).map (position :: ·) ++
        placesFrom (position + 1) rest)
termination_by nodes => totalWeight count nodes
decreasing_by
  all_goals
    have := count_eq node
    simp only [total_weight_cons]
    omega

/-- All places of a tree, in the order of the walk. -/
def places (root : Node) : List (List Nat) := [] :: placesFrom 0 root.children

/-- The places are those that lead to a node, in lexicographic order. -/
structure HasPlaces (root : Node) (places : List (List Nat)) : Prop where
  ordered : places.Pairwise (· < ·)
  all : ∀ place, place ∈ places ↔ (root.nodeAt? place).isSome = true

/-- What holds of siblings whenever it holds of the children of the first one and of the others
holds of all lists of nodes. -/
theorem sibling_induction {holds : List Node → Prop} (none : holds [])
    (some : ∀ (first : Node) (rest : List Node), holds first.children → holds rest →
      holds (first :: rest)) (nodes : List Node) : holds nodes := by
  cases nodes with
  | nil => exact none
  | cons first rest =>
      have := count_eq first
      apply some first rest
      · exact sibling_induction none some first.children
      · exact sibling_induction none some rest
termination_by totalWeight count nodes
decreasing_by
  all_goals
    simp only [total_weight_cons]
    omega

theorem places_from_eq (position : Nat) (nodes : List Node) : placesFrom position nodes =
    (nodes.zipIdx position).flatMap fun each => each.1.places.map (each.2 :: ·) := by
  induction nodes generalizing position with
  | nil => rw [placesFrom, List.zipIdx_nil, List.flatMap_nil]
  | cons node rest induction =>
      rw [placesFrom, induction, List.zipIdx_cons, List.flatMap_cons, places, List.map_cons,
        List.cons_append]

theorem places_eq (root : Node) : root.places =
    [] :: root.children.zipIdx.flatMap fun each => each.1.places.map (each.2 :: ·) := by
  rw [places, places_from_eq]

section Child

variable {parent child : Node} {position : Nat}

theorem node_at_cons (here : parent.children[position]? = some child) (deeper : List Nat) :
    parent.nodeAt? (position :: deeper) = child.nodeAt? deeper := by
  rw [nodeAt?, here, Option.bind_some]

theorem parent_at_child (position : Nat) : parent.parentAt? [position] = some parent := rfl

theorem parent_at_cons (here : parent.children[position]? = some child) {deeper : List Nat}
    (inside : deeper ≠ []) : parent.parentAt? (position :: deeper) = child.parentAt? deeper := by
  rw [parentAt?, parentAt?, if_neg (List.cons_ne_nil position deeper), if_neg inside,
    List.dropLast_cons_of_ne_nil inside, node_at_cons here]

end Child

/-- What is collected over all places is collected at the root and then child by child. -/
theorem flat_map_places {Value : Type} (values : List Nat → List Value) (root : Node) :
    root.places.flatMap values = values [] ++ root.children.zipIdx.flatMap fun each =>
      each.1.places.flatMap fun deeper => values (each.2 :: deeper) := by
  rw [places_eq, List.flatMap_cons, List.flatMap_assoc]
  simp only [List.flatMap_map]

theorem flat_map_places_of_children {Value : Type} {values : List Nat → List Value} {root : Node}
    {inside : Node → List Value} (each : ∀ child position, root.children[position]? = some child →
      (child.places.flatMap fun deeper => values (position :: deeper)) = inside child) :
    root.places.flatMap values = values [] ++ root.children.flatMap inside := by
  have children : root.children.zipIdx.flatMap (fun each => inside each.1) =
      root.children.flatMap inside := by
    rw [← List.flatMap_map, List.zipIdx_map_fst]
  rw [flat_map_places, ← children]
  congr 1
  apply List.flatMap_congr
  rintro ⟨child, position⟩ member
  exact each child position (List.mem_zipIdx_iff_getElem?.1 member)

theorem map_node_at_places (root : Node) :
    root.places.map root.nodeAt? = root.listing.map some := by
  induction root using child_induction with
  | step root induction =>
      rw [List.map_eq_flatMap, listing_eq, List.map_cons, List.map_flatMap]
      apply flat_map_places_of_children
      intro child position here
      rw [← induction child (List.mem_of_getElem? here), List.map_eq_flatMap]
      simp only [node_at_cons here]

theorem mem_places_iff (root : Node) (place : List Nat) :
    place ∈ root.places ↔ (root.nodeAt? place).isSome = true := by
  induction place generalizing root with
  | nil => simp [places, nodeAt?]
  | cons position deeper induction =>
      rw [places_eq]
      constructor
      · intro member
        rcases List.mem_cons.1 member with same | later
        · cases same
        · obtain ⟨⟨child, index⟩, among, inside⟩ := List.mem_flatMap.1 later
          obtain ⟨_, place, ⟨⟩⟩ := List.mem_map.1 inside
          rw [node_at_cons (List.mem_zipIdx_iff_getElem?.1 among)]
          exact (induction child).1 place
      · intro leads
        cases here : root.children[position]? with
        | none => simp [nodeAt?, here] at leads
        | some child =>
            rw [node_at_cons here] at leads
            apply List.mem_cons_of_mem
            apply List.mem_flatMap.2
            refine ⟨(child, position), List.mem_zipIdx_iff_getElem?.2 here, ?_⟩
            exact List.mem_map_of_mem ((induction child).2 leads)

theorem places_ordered (root : Node) : root.places.Pairwise (· < ·) := by
  induction root using child_induction with
  | step root induction =>
      rw [places_eq]
      refine List.pairwise_cons.2 ⟨?_, List.pairwise_flatMap.2 ⟨?_, ?_⟩⟩
      · intro place member
        obtain ⟨each, -, inside⟩ := List.mem_flatMap.1 member
        obtain ⟨deeper, -, rfl⟩ := List.mem_map.1 inside
        exact List.nil_lt_cons _ _
      · rintro ⟨child, position⟩ member
        have here := List.mem_zipIdx_iff_getElem?.1 member
        rw [List.pairwise_map]
        apply (induction child (List.mem_of_getElem? here)).imp
        intro left right before
        exact List.cons_lt_cons_iff.2 (.inr ⟨rfl, before⟩)
      · have positions : (root.children.zipIdx.map Prod.snd).Pairwise (· < ·) := by
          rw [List.zipIdx_map_snd]
          exact List.pairwise_lt_range' 1
        apply (List.pairwise_map.1 positions).imp
        intro left right before place inLeft other inRight
        obtain ⟨deeper, -, rfl⟩ := List.mem_map.1 inLeft
        obtain ⟨otherDeeper, -, rfl⟩ := List.mem_map.1 inRight
        exact List.cons_lt_cons_iff.2 (.inl before)

theorem mem_listing_of_place {root node : Node} {place : List Nat}
    (here : root.nodeAt? place = some node) : node ∈ root.listing := by
  have member : place ∈ root.places := (root.mem_places_iff place).2 (by rw [here]; rfl)
  have listed := List.mem_map_of_mem (f := root.nodeAt?) member
  rw [here, map_node_at_places] at listed
  obtain ⟨_, listed, ⟨⟩⟩ := List.mem_map.1 listed
  exact listed

theorem has_places (root : Node) : root.HasPlaces root.places :=
  ⟨root.places_ordered, root.mem_places_iff⟩

/-- What is found first on the walk is found at the least of the places where anything is found. -/
theorem find_some_places_iff {Value : Type} {root : Node} {find : List Nat → Option Value}
    (outside : ∀ place, root.nodeAt? place = none → find place = none) {value : Value} :
    root.places.findSome? find = some value ↔
      ∃ place, find place = some value ∧ ∀ earlier < place, find earlier = none := by
  rw [List.findSome?_eq_some_iff]
  constructor
  · rintro ⟨before, place, after, split, found, first⟩
    refine ⟨place, found, fun earlier less => ?_⟩
    by_cases leads : root.nodeAt? earlier = none
    · exact outside earlier leads
    · have member : earlier ∈ root.places :=
        (root.mem_places_iff earlier).2 (Option.isSome_iff_ne_none.2 leads)
      have ordered := root.places_ordered
      rw [split] at member ordered
      obtain ⟨-, fromHere, -⟩ := List.pairwise_append.1 ordered
      rcases List.mem_append.1 member with among | later
      · exact first earlier among
      · rcases List.mem_cons.1 later with rfl | behind
        · exact absurd less (lt_irrefl earlier)
        · have greater := (List.pairwise_cons.1 fromHere).1 earlier behind
          exact absurd less greater.asymm
  · rintro ⟨place, found, first⟩
    have member : place ∈ root.places := by
      rw [mem_places_iff, Option.isSome_iff_ne_none]
      intro leadsNowhere
      rw [outside place leadsNowhere] at found
      cases found
    obtain ⟨before, after, split⟩ := List.append_of_mem member
    refine ⟨before, place, after, split, found, fun earlier among => first earlier ?_⟩
    have ordered := root.places_ordered
    rw [split] at ordered
    exact (List.pairwise_append.1 ordered).2.2 earlier among place List.mem_cons_self

end Node

end RhoFrontend
