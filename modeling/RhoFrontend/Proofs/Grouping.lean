import RhoFrontend.Proofs.FlatTrees

/-!
Parallel composition without regard to grouping. The composition of a group gives up the operands
that the group has when it is spliced, a single one or several alike, so composing groups first
makes no difference, and neither does composing two at a time from either side.
-/

namespace RhoFrontend.ProcessTree

theorem operands_of_single {process : ProcessTree} (single : process.isPar = false) :
    process.operandsOf = [process] := by
  cases process with
  | par operands => cases single
  | _ => rfl

/-- What is composed depends on the operands only as they are spliced. -/
theorem parallel_of_congr {operands others : List ProcessTree}
    (same : spliced operands = spliced others) : parallelOf operands = parallelOf others := by
  rw [parallelOf, parallelOf, same]

theorem parallel_eq (left right : ProcessTree) :
    parallel left right = .par (left.operandsOf ++ right.operandsOf) := by
  simp [parallel, spliced]

theorem parallel_assoc (left middle right : ProcessTree) :
    parallel (parallel left middle) right = parallel left (parallel middle right) := by
  simp only [parallel_eq, operandsOf, List.append_assoc]

section Groups

variable {operands : List ProcessTree} (flat : ∀ operand ∈ operands, operand.Flat)

include flat

theorem length_le_spliced_of_flat : operands.length ≤ (spliced operands).length :=
  length_le_spliced fun operand member => (flat operand member).operands_of.1

/-- A group that comes down to one operand is that operand. It is no composition itself, and so
it is not taken apart again. -/
theorem operands_of_parallel_of (nonempty : operands ≠ []) :
    (parallelOf operands).operandsOf = spliced operands := by
  have enough := length_le_spliced_of_flat flat
  have positive := List.length_pos_of_ne_nil nonempty
  cases pieces : spliced operands with
  | nil =>
      rw [pieces, List.length_nil] at enough
      omega
  | cons first rest =>
      cases rest with
      | nil =>
          have member : first ∈ spliced operands := pieces ▸ List.mem_singleton_self first
          obtain ⟨operand, among, inside⟩ := List.mem_flatMap.1 member
          rw [parallelOf, pieces]
          exact operands_of_single ((flat operand among).operands_of.2 first inside)
      | cons second rest =>
          rw [parallelOf, pieces]
          rfl

end Groups

theorem spliced_groups {groups : List (List ProcessTree)}
    (nonempty : ∀ group ∈ groups, group ≠ [])
    (flat : ∀ group ∈ groups, ∀ operand ∈ group, operand.Flat) :
    spliced (groups.map parallelOf) = spliced groups.flatten := by
  induction groups with
  | nil => rfl
  | cons group groups induction =>
      obtain ⟨nonemptyHere, nonemptyLater⟩ := List.forall_mem_cons.1 nonempty
      obtain ⟨flatHere, flatLater⟩ := List.forall_mem_cons.1 flat
      have later := induction nonemptyLater flatLater
      rw [List.map_cons, spliced_cons, operands_of_parallel_of flatHere nonemptyHere, later,
        List.flatten_cons, spliced, spliced, spliced, List.flatMap_append]

/-- Grouping makes no difference: not for three processes of any shape, and not for any number of
them if the compositions among them are flat, whether their groups are composed first, or two at a
time are from the left or from the right. -/
theorem parallel_ignores_grouping :
    (∀ left middle right : ProcessTree,
      parallel (parallel left middle) right = parallel left (parallel middle right)) ∧
      ∀ groups : List (List ProcessTree), (∀ group ∈ groups, group ≠ []) →
        (∀ group ∈ groups, ∀ operand ∈ group, operand.Flat) →
        parallelOf (groups.map parallelOf) = parallelOf groups.flatten ∧
          (∀ first rest, groups.flatten = first :: rest → rest ≠ [] →
            rest.foldl parallel first = parallelOf groups.flatten) ∧
          ∀ init last, groups.flatten = init ++ [last] → init ≠ [] →
            init.foldr parallel last = parallelOf groups.flatten := by
  refine ⟨parallel_assoc, fun groups nonempty flat => ⟨?_, ?_, ?_⟩⟩
  · exact parallel_of_congr (spliced_groups nonempty flat)
  all_goals
    have flatAll : ∀ operand ∈ groups.flatten, operand.Flat := by
      intro operand member
      obtain ⟨group, among, inside⟩ := List.mem_flatten.1 member
      exact flat group among operand inside
    have enough := length_le_spliced_of_flat flatAll
  · intro first rest all more
    have positive := List.length_pos_of_ne_nil more
    rw [all, List.length_cons] at enough
    rw [all, foldl_parallel first more, parallel_of_several (by omega)]
  · intro init last all more
    have positive := List.length_pos_of_ne_nil more
    rw [all, List.length_append, List.length_singleton] at enough
    rw [all, foldr_parallel last more, parallel_of_several (by omega)]

/-- A chain beside a string in one group, and a group of one process. -/
def groupsAroundChain : List (List ProcessTree) :=
  [[.par [.nil, .ground (.int 1)], .ground (.string "a")], [.bundle .nil]]

theorem parallel_ignores_grouping_around_chain :
    (∀ group ∈ groupsAroundChain, group ≠ []) ∧
      (∀ group ∈ groupsAroundChain, ∀ operand ∈ group, operand.Flat) ∧
      parallelOf (groupsAroundChain.map parallelOf) =
        .par [.nil, .ground (.int 1), .ground (.string "a"), .bundle .nil] ∧
      parallel (parallel (.par [.nil, .ground (.int 1)]) (.ground (.string "a"))) (.bundle .nil) =
        parallelOf groupsAroundChain.flatten ∧
      parallel (.par [.nil, .ground (.int 1)]) (parallel (.ground (.string "a")) (.bundle .nil)) =
        parallelOf groupsAroundChain.flatten := by
  have nonempty : ∀ group ∈ groupsAroundChain, group ≠ [] := by decide
  have chain : Flat (.par [.nil, .ground (.int 1)]) := by
    rintro _ ⟨⟩
    exact ⟨by decide, by decide⟩
  have string : Flat (.ground (.string "a")) := nofun
  have bundle : Flat (.bundle .nil) := nofun
  have flat : ∀ group ∈ groupsAroundChain, ∀ operand ∈ group, operand.Flat := by
    simp [groupsAroundChain, chain, string, bundle]
  obtain ⟨grouped, leftwards, rightwards⟩ :=
    parallel_ignores_grouping.2 groupsAroundChain nonempty flat
  refine ⟨nonempty, flat, grouped.trans (by decide), ?_, ?_⟩
  · exact leftwards _ [.ground (.string "a"), .bundle .nil] rfl (List.cons_ne_nil _ _)
  · exact rightwards [.par [.nil, .ground (.int 1)], .ground (.string "a")] _ rfl
      (List.cons_ne_nil _ _)

end RhoFrontend.ProcessTree
