import Mathlib.Logic.Function.Iterate
import RhoFrontend.Proofs.SourceFaults

/-!
Chains that stand directly in chains, as they do in no tree that a source is read as, but may in one
that is put together by hand or read from JSON. Splicing takes one level of them away and keeps
their leaves, so a single pass leaves a chain among its operands whenever one of them nested a
chain, and such a composition has no source text.
-/

namespace RhoFrontend

mutual

/-- What runs side by side once each chain is taken apart, however deep it stands in another. -/
def ProcessTree.leaves : ProcessTree → List ProcessTree
  | .par operands => ProcessTree.listLeaves operands
  | process => [process]

def ProcessTree.listLeaves : List ProcessTree → List ProcessTree
  | [] => []
  | process :: rest => process.leaves ++ ProcessTree.listLeaves rest

end

mutual

/-- How long a line of chains gets in which each is an operand of the one before. -/
def ProcessTree.nesting : ProcessTree → Nat
  | .par operands => 1 + ProcessTree.listNesting operands
  | _ => 0

def ProcessTree.listNesting : List ProcessTree → Nat
  | [] => 0
  | process :: rest => max process.nesting (ProcessTree.listNesting rest)

end

namespace ProcessTree

/-- A chain with another one among its operands. -/
def NestsChain (tree : ProcessTree) : Prop :=
  ∃ operands, tree = .par operands ∧ ∃ operand ∈ operands, operand.isPar = true

/-! Leaves and nesting of one process and of a list. -/

theorem leaves_of_single {process : ProcessTree} (single : process.isPar = false) :
    process.leaves = [process] := by
  cases process with
  | par operands => cases single
  | _ => rfl

theorem nesting_eq_zero_iff {process : ProcessTree} :
    process.nesting = 0 ↔ process.isPar = false := by
  cases process with
  | par operands => simp [nesting, isPar]
  | _ => simp [nesting, isPar]

theorem list_nesting_le_iff {processes : List ProcessTree} {bound : Nat} :
    listNesting processes ≤ bound ↔ ∀ process ∈ processes, process.nesting ≤ bound := by
  induction processes with
  | nil => simp [listNesting]
  | cons process rest induction =>
      rw [listNesting, Nat.max_le, induction, List.forall_mem_cons]

theorem list_nesting_eq_zero_iff {processes : List ProcessTree} :
    listNesting processes = 0 ↔ ∀ process ∈ processes, process.isPar = false := by
  simp only [← Nat.le_zero, list_nesting_le_iff, ← nesting_eq_zero_iff]

theorem nesting_le_one_iff {process : ProcessTree} :
    process.nesting ≤ 1 ↔ ¬ process.NestsChain := by
  cases process with
  | par operands =>
      have few : nesting (.par operands) ≤ 1 ↔ listNesting operands = 0 := by
        rw [nesting]
        omega
      rw [few, list_nesting_eq_zero_iff]
      simp [NestsChain]
  | _ => simp [nesting, NestsChain]

theorem list_nesting_le_one_iff {processes : List ProcessTree} :
    listNesting processes ≤ 1 ↔ ∀ process ∈ processes, ¬ process.NestsChain := by
  simp only [list_nesting_le_iff, nesting_le_one_iff]

theorem list_leaves_append (left right : List ProcessTree) :
    listLeaves (left ++ right) = listLeaves left ++ listLeaves right := by
  induction left with
  | nil => rfl
  | cons process rest induction =>
      rw [List.cons_append, listLeaves, listLeaves, induction, List.append_assoc]

theorem list_nesting_append (left right : List ProcessTree) :
    listNesting (left ++ right) = max (listNesting left) (listNesting right) := by
  induction left with
  | nil => simp [listNesting]
  | cons process rest induction =>
      rw [List.cons_append, listNesting, listNesting, induction, Nat.max_assoc]

end ProcessTree

mutual

theorem ProcessTree.leaf_is_single : ∀ (tree : ProcessTree) {leaf : ProcessTree},
    leaf ∈ tree.leaves → leaf.isPar = false
  | .par operands, _, member => ProcessTree.list_leaf_is_single operands member
  | .nil, _, member | .ground _, _, member | .send _ _, _, member | .receive _ _, _, member
  | .restrict _ _, _, member | .bundle _, _, member => by
      rw [List.mem_singleton.1 member]
      rfl

theorem ProcessTree.list_leaf_is_single : ∀ (processes : List ProcessTree) {leaf : ProcessTree},
    leaf ∈ ProcessTree.listLeaves processes → leaf.isPar = false
  | process :: rest, _, member => by
      rcases List.mem_append.1 member with here | later
      · exact process.leaf_is_single here
      · exact ProcessTree.list_leaf_is_single rest later

end

namespace ProcessTree

theorem list_leaves_eq_self {processes : List ProcessTree}
    (single : ∀ process ∈ processes, process.isPar = false) : listLeaves processes = processes := by
  induction processes with
  | nil => rfl
  | cons process rest induction =>
      obtain ⟨here, later⟩ := List.forall_mem_cons.1 single
      rw [listLeaves, leaves_of_single here, induction later, List.singleton_append]

/-- A list is made of leaves exactly if there is no chain in it. -/
theorem eq_list_leaves_iff {processes : List ProcessTree} :
    processes = listLeaves processes ↔ listNesting processes = 0 := by
  rw [list_nesting_eq_zero_iff]
  constructor
  · intro same process member
    rw [same] at member
    exact list_leaf_is_single processes member
  · exact fun single => (list_leaves_eq_self single).symm

/-! What one pass does, and what several of them do. -/

theorem list_leaves_of_operands (tree : ProcessTree) :
    listLeaves tree.operandsOf = tree.leaves := by
  cases tree with
  | par operands => rfl
  | _ => rfl

theorem list_nesting_of_operands (tree : ProcessTree) :
    listNesting tree.operandsOf = tree.nesting - 1 := by
  cases tree with
  | par operands => rw [operandsOf, nesting, Nat.add_sub_cancel_left]
  | _ => rfl

theorem list_leaves_spliced (operands : List ProcessTree) :
    listLeaves (spliced operands) = listLeaves operands := by
  induction operands with
  | nil => rfl
  | cons operand rest induction =>
      rw [spliced_cons, list_leaves_append, list_leaves_of_operands, induction, listLeaves]

theorem list_nesting_spliced (operands : List ProcessTree) :
    listNesting (spliced operands) = listNesting operands - 1 := by
  induction operands with
  | nil => rfl
  | cons operand rest induction =>
      rw [spliced_cons, list_nesting_append, list_nesting_of_operands, induction, listNesting]
      omega

theorem list_leaves_iterate_spliced (passes : Nat) (operands : List ProcessTree) :
    listLeaves (spliced^[passes] operands) = listLeaves operands := by
  induction passes with
  | zero => rfl
  | succ passes induction => rw [Function.iterate_succ_apply', list_leaves_spliced, induction]

theorem list_nesting_iterate_spliced (passes : Nat) (operands : List ProcessTree) :
    listNesting (spliced^[passes] operands) = listNesting operands - passes := by
  induction passes with
  | zero => rfl
  | succ passes induction =>
      rw [Function.iterate_succ_apply', list_nesting_spliced, induction, Nat.sub_sub]

/-- There have to be as many passes as chains stand one in another. -/
theorem iterate_spliced_eq_leaves_iff (passes : Nat) (operands : List ProcessTree) :
    spliced^[passes] operands = listLeaves operands ↔ listNesting operands ≤ passes := by
  -- The leaves are the same after all passes, so only the nesting that is left decides.
  rw [← list_leaves_iterate_spliced passes operands, eq_list_leaves_iff,
    list_nesting_iterate_spliced, Nat.sub_eq_zero_iff_le]

theorem spliced_eq_leaves_iff (operands : List ProcessTree) :
    spliced operands = listLeaves operands ↔ ∀ operand ∈ operands, ¬ operand.NestsChain := by
  rw [← list_nesting_le_one_iff, ← iterate_spliced_eq_leaves_iff, Function.iterate_one]

theorem spliced_single_iff (operands : List ProcessTree) :
    (∀ part ∈ spliced operands, part.isPar = false) ↔
      ∀ operand ∈ operands, ¬ operand.NestsChain := by
  rw [← list_nesting_eq_zero_iff, list_nesting_spliced, Nat.sub_eq_zero_iff_le,
    list_nesting_le_one_iff]

theorem nests_chain_par_spliced_iff (operands : List ProcessTree) :
    NestsChain (.par (spliced operands)) ↔ ∃ operand ∈ operands, operand.NestsChain := by
  rw [← not_iff_not, ← nesting_le_one_iff]
  have few : nesting (.par (spliced operands)) ≤ 1 ↔ listNesting operands ≤ 1 := by
    rw [nesting, list_nesting_spliced]
    omega
  rw [few, list_nesting_le_one_iff]
  simp only [not_exists, not_and]

theorem nests_chain_parallel_of_iff (operands : List ProcessTree) :
    (parallelOf operands).NestsChain ↔
      (∃ process, spliced operands = [process] ∧ process.NestsChain) ∨
        2 ≤ (spliced operands).length ∧ ∃ operand ∈ operands, operand.NestsChain := by
  rw [← nests_chain_par_spliced_iff, parallelOf]
  cases spliced operands with
  | nil => simp [NestsChain]
  | cons first rest =>
      cases rest with
      -- What stays alone is not wrapped, and so only the chains that it nests itself count.
      | nil => simp
      | cons second rest => simp

/-- What is composed has a source text exactly if its leaves have one, there are two or more of
them, and one pass brought them all out. -/
theorem printable_par_spliced_iff (operands : List ProcessTree) :
    Printable (.par (spliced operands)) ↔
      (∀ operand ∈ operands, ¬ operand.NestsChain) ∧ 2 ≤ (listLeaves operands).length ∧
        ∀ leaf ∈ listLeaves operands, leaf.Printable := by
  constructor
  · rintro ⟨⟩
    next several flat all =>
      have unnested := (spliced_single_iff operands).1 flat
      have leaves := (spliced_eq_leaves_iff operands).2 unnested
      rw [leaves] at several all
      exact ⟨unnested, several, all⟩
  · rintro ⟨unnested, several, all⟩
    have flat := (spliced_single_iff operands).2 unnested
    have leaves := (spliced_eq_leaves_iff operands).2 unnested
    rw [← leaves] at several all
    exact .par several flat all

theorem Flat.not_nests_chain {tree : ProcessTree} (flat : tree.Flat) : ¬ tree.NestsChain := by
  rintro ⟨operands, same, operand, member, chain⟩
  have single := (flat operands same).2 operand member
  exact Bool.false_ne_true (single.symm.trans chain)

theorem not_nests_chain_of_parse {options : Options} {source : String} {tree : ProcessTree}
    (read : ProcessTree.parse options source = .ok tree) : ¬ tree.NestsChain := by
  have printable := (exists_reading_iff options).1 ⟨source, read⟩
  exact (everywhere_of_printable printable).here.1.not_nests_chain

/-- Splicing keeps the leaves in their order and removes one level of chains. So the operands that
come out are the leaves, and none of them is a chain, exactly if none of those that went in nested
one, as none does that a source is read as; in general it takes as many passes as chains stand one
in another. A nested chain is handed on by a composition of two processes or of any number, where a
part that is left alone is taken as it is. What has a nested chain has no source text. -/
theorem splicing_removes_one_level (operands : List ProcessTree) :
    listLeaves (spliced operands) = listLeaves operands ∧
      listNesting (spliced operands) = listNesting operands - 1 ∧
      ((∀ part ∈ spliced operands, part.isPar = false) ↔
        ∀ operand ∈ operands, ¬ operand.NestsChain) ∧
      (spliced operands = listLeaves operands ↔ ∀ operand ∈ operands, ¬ operand.NestsChain) ∧
      (∀ passes, spliced^[passes] operands = listLeaves operands ↔
        listNesting operands ≤ passes) ∧
      ((∀ operand ∈ operands, ∃ options source,
          ProcessTree.parse options source = .ok operand) →
        (∀ part ∈ spliced operands, part.isPar = false) ∧
          spliced operands = listLeaves operands) ∧
      ((∃ text, (ProcessTree.par (spliced operands)).toSource = .ok text) ↔
        (∀ operand ∈ operands, ¬ operand.NestsChain) ∧ 2 ≤ (listLeaves operands).length ∧
          ∀ leaf ∈ listLeaves operands, ∃ text, leaf.toSource = .ok text) ∧
      ((parallelOf operands).NestsChain ↔
        (∃ process, spliced operands = [process] ∧ process.NestsChain) ∨
          2 ≤ (spliced operands).length ∧ ∃ operand ∈ operands, operand.NestsChain) ∧
      ∀ left right : ProcessTree,
        (parallel left right).NestsChain ↔ left.NestsChain ∨ right.NestsChain := by
  refine ⟨list_leaves_spliced operands, list_nesting_spliced operands,
    spliced_single_iff operands, spliced_eq_leaves_iff operands,
    fun passes => iterate_spliced_eq_leaves_iff passes operands, ?_, ?_,
    nests_chain_parallel_of_iff operands, ?_⟩
  · intro read
    have unnested : ∀ operand ∈ operands, ¬ operand.NestsChain := by
      intro operand member
      obtain ⟨options, source, parsed⟩ := read operand member
      exact not_nests_chain_of_parse parsed
    exact ⟨(spliced_single_iff operands).2 unnested, (spliced_eq_leaves_iff operands).2 unnested⟩
  · simp only [exists_source_iff]
    exact printable_par_spliced_iff operands
  · intro left right
    rw [parallel, nests_chain_par_spliced_iff]
    simp

/-- A chain comes apart beside a bundle, whose own chain is no operand of it. -/
theorem splicing_removes_one_level_of_read_chain :
    let chain := ProcessTree.par [.nil, .ground (.string "a")]
    let bundle := ProcessTree.bundle (.par [.ground (.bool true), .nil])
    ProcessTree.parse {} "Nil | \"a\"" = .ok chain ∧
      ProcessTree.parse {} "bundle \x7b true | Nil \x7d" = .ok bundle ∧
      listLeaves [chain, bundle] = [.nil, .ground (.string "a"), bundle] ∧
      spliced [chain, bundle] = listLeaves [chain, bundle] := by
  intro chain bundle
  have readChain : ProcessTree.parse {} "Nil | \"a\"" = .ok chain := by cbv
  have readBundle : ProcessTree.parse {} "bundle \x7b true | Nil \x7d" = .ok bundle := by cbv
  have read : ∀ operand ∈ [chain, bundle],
      ∃ options source, ProcessTree.parse options source = .ok operand :=
    List.forall_mem_cons.2
      ⟨⟨_, _, readChain⟩, List.forall_mem_singleton.2 ⟨_, _, readBundle⟩⟩
  obtain ⟨-, -, -, -, -, apart, -⟩ := splicing_removes_one_level [chain, bundle]
  exact ⟨readChain, readBundle, rfl, (apart read).2⟩

/-- A chain in a chain, as it may come from JSON. The inner one is an operand of what is composed,
where its own operands should be, and the composition has no source text. -/
theorem inner_chain_survives_splicing :
    let chain := ProcessTree.par [.nil, .ground (.bool true)]
    let nested := ProcessTree.par [chain, .nil]
    let other := ProcessTree.ground (.string "a")
    ofJsonText? "[\"par\",[[\"par\",[[\"nil\"],[\"ground\",\"bool\",true]]],[\"nil\"]]]" =
        some nested ∧
      chain.isPar = true ∧ spliced [nested, other] = [chain, .nil, other] ∧
      listLeaves [nested, other] = [.nil, .ground (.bool true), .nil, other] ∧
      (parallel nested other).NestsChain ∧ (parallelOf [nested, other]).NestsChain ∧
      (parallel nested other).toSource = .error .nestedPar := by
  intro chain nested other
  have inside : chain ∈ spliced [nested, other] := List.mem_cons_self
  refine ⟨by cbv, rfl, rfl, rfl, ⟨_, rfl, chain, inside, rfl⟩, ⟨_, rfl, chain, inside, rfl⟩, ?_⟩
  rw [to_source_error_iff]
  decide

end ProcessTree

end RhoFrontend
