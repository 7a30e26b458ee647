import RhoFrontend.ProcessTree.Construction
import RhoFrontend.Proofs.FlatTrees

/-!
Runs of construction steps. A step that takes no raw composition makes one construction of what is
on the stack, or leaves some part of it there again. So a run from the empty stack has a history of
constructions, and what holds everywhere in their results holds everywhere in what the run leaves.
-/

namespace RhoFrontend

open ProcessTree

/-- The process is the result of one of the constructions, or is inside such a result. -/
def Available (constructions : List Construction) (process : ProcessTree) : Prop :=
  ∃ source ∈ constructions, process ∈ source.result.listing

theorem Available.inside {constructions : List Construction} {process part : ProcessTree}
    (available : Available constructions process) (member : part ∈ process.listing) :
    Available constructions part := by
  obtain ⟨source, among, inside⟩ := available
  exact ⟨source, among, mem_listing_trans inside member⟩

theorem Available.later {constructions : List Construction} {process : ProcessTree}
    (available : Available constructions process) (later : List Construction) :
    Available (later ++ constructions) process := by
  obtain ⟨source, among, inside⟩ := available
  exact ⟨source, List.mem_append_right later among, inside⟩

namespace ConstructionStep

/-- The step puts no process on the stack that it has from elsewhere, literals and `nil` apart, and
wraps no operands into a composition as they are. -/
def Smart : ConstructionStep → Prop
  | .push process => process = .nil ∨ ∃ literal, process = .ground literal
  | .par _ | .spliced _ => False
  | .send | .parallel | .bundle | .parallelOf _ | .receiveOn _ | .restrictNames _ | .restrict _
  | .duplicate | .subprocess _ => True

/-- What the step is given besides processes can be written down. -/
def WellNamed : ConstructionStep → Prop
  | .push process => process.WellNamed
  | .receiveOn names | .restrictNames names => names ≠ [] ∧ ∀ name ∈ names, IsIdentifier name
  | .restrict declarations =>
      declarations ≠ [] ∧ ∀ declaration ∈ declarations, declaration.WellNamed
  | .send | .parallel | .bundle | .parallelOf _ | .spliced _ | .par _ | .duplicate
  | .subprocess _ => True

/-- What a step leaves on top: the result of a construction of processes on the stack, or a part of
one of these. -/
inductive Leaves (step : ConstructionStep) (stack : List ProcessTree) : ProcessTree → Prop
  | made {construction : Construction} (given : construction.operands ⊆ stack)
      (named : step.WellNamed → construction.WellNamed) : Leaves step stack construction.result
  | reused {process part : ProcessTree} (member : process ∈ stack)
      (inside : part ∈ process.listing) : Leaves step stack part

/-- A step takes some processes from the stack and leaves one on what is below them. -/
def Proceeds (step : ConstructionStep) (stack next : List ProcessTree) : Prop :=
  ∃ top below, next = top :: below ∧ below ⊆ stack ∧ step.Leaves stack top

variable {step : ConstructionStep} {stack next : List ProcessTree}

theorem take_operands_eq_some {count : Nat} {operands rest : List ProcessTree}
    (taken : takeOperands? count stack = some (operands, rest)) :
    operands.length = count ∧ operands ⊆ stack ∧ rest ⊆ stack := by
  unfold takeOperands? at taken
  split at taken
  · next enough =>
      cases taken
      refine ⟨by simp [enough], fun operand member => ?_, List.drop_subset count stack⟩
      exact List.take_subset count stack (List.mem_reverse.1 member)
  · cases taken

theorem proceeds_of_made (construction : Construction) {below : List ProcessTree}
    (run : some (construction.result :: below) = some next)
    (given : construction.operands ⊆ stack) (lower : below ⊆ stack)
    (named : step.WellNamed → construction.WellNamed) : step.Proceeds stack next := by
  cases run
  exact ⟨_, below, rfl, lower, .made given named⟩

/-- The channels of a receive are as many as its names. -/
theorem proceeds_of_receive {names : List String} {body : ProcessTree} {rest : List ProcessTree}
    (run : (receiveOn names).run? (body :: rest) = some next) :
    (receiveOn names).Proceeds (body :: rest) next := by
  obtain ⟨⟨channels, lower⟩, taken, made⟩ := Option.map_eq_some_iff.1 run
  obtain ⟨count, given, below⟩ := take_operands_eq_some taken
  have bound : (names.zip channels).map Prod.fst = names :=
    List.map_fst_zip (Nat.le_of_eq count.symm)
  have processes : (names.zip channels).map Prod.snd = channels :=
    List.map_snd_zip (Nat.le_of_eq count)
  refine proceeds_of_made (.receiveOn (names.zip channels) body) (congrArg some made) ?_
    (List.subset_cons_of_subset body below) ?_
  · rw [Construction.operands, processes, List.append_subset]
    exact ⟨List.subset_cons_of_subset body given, by simp⟩
  · rintro ⟨nonempty, identifiers⟩
    rw [← bound] at nonempty identifiers
    exact ⟨mt List.map_eq_nil_iff.2 nonempty, List.forall_mem_map.1 identifiers⟩

theorem proceeds_of_run (smart : step.Smart) (run : step.run? stack = some next) :
    step.Proceeds stack next := by
  cases step with
  | push process =>
      rcases smart with rfl | ⟨literal, rfl⟩
      · exact proceeds_of_made .nil run (List.nil_subset _) (List.Subset.refl _) fun _ => trivial
      · exact proceeds_of_made (.literal literal) run (List.nil_subset _) (List.Subset.refl _) id
  | par | spliced => exact smart.elim
  | send =>
      rcases stack with _ | ⟨message, _ | ⟨channel, rest⟩⟩
      · cases run
      · cases run
      · exact proceeds_of_made (.send channel message) run (by simp [Construction.operands])
          (by simp) fun _ => trivial
  | parallel =>
      rcases stack with _ | ⟨right, _ | ⟨left, rest⟩⟩
      · cases run
      · cases run
      · exact proceeds_of_made (.parallel left right) run (by simp [Construction.operands])
          (by simp) fun _ => trivial
  | parallelOf count =>
      obtain ⟨⟨operands, rest⟩, taken, made⟩ := Option.map_eq_some_iff.1 run
      obtain ⟨-, given, below⟩ := take_operands_eq_some taken
      exact proceeds_of_made (.parallelOf operands) (congrArg some made) given below
        fun _ => trivial
  | bundle =>
      rcases stack with _ | ⟨body, rest⟩
      · cases run
      · exact proceeds_of_made (.bundle body) run (by simp [Construction.operands]) (by simp)
          fun _ => trivial
  | receiveOn names =>
      rcases stack with _ | ⟨body, rest⟩
      · cases run
      · exact proceeds_of_receive run
  | restrictNames names =>
      rcases stack with _ | ⟨body, rest⟩
      · cases run
      · exact proceeds_of_made (.restrictNames names body) run (by simp [Construction.operands])
          (by simp) id
  | restrict declarations =>
      rcases stack with _ | ⟨body, rest⟩
      · cases run
      · exact proceeds_of_made (.restrict declarations body) run (by simp [Construction.operands])
          (by simp) id
  | duplicate =>
      rcases stack with _ | ⟨top, rest⟩
      · cases run
      · cases run
        exact ⟨top, top :: rest, rfl, List.Subset.refl _,
          .reused List.mem_cons_self top.self_mem_listing⟩
  | subprocess index =>
      rcases stack with _ | ⟨top, rest⟩
      · cases run
      · obtain ⟨part, found, rfl⟩ := Option.map_eq_some_iff.1 run
        have inside := subprocess_mem_listing (List.mem_of_getElem? found)
        exact ⟨part, rest, rfl, by simp, .reused List.mem_cons_self inside⟩

/-- One step adds at most one construction to a history. -/
theorem exists_history_of_step {constructions : List Construction} (history : History constructions)
    (available : ∀ process ∈ stack, Available constructions process) (smart : step.Smart)
    (run : step.run? stack = some next) :
    ∃ later, History (later ++ constructions) ∧
      (∀ process ∈ next, Available (later ++ constructions) process) ∧
      (step.WellNamed → ∀ construction ∈ later, construction.WellNamed) := by
  obtain ⟨top, below, rfl, lower, leaves⟩ := proceeds_of_run smart run
  cases leaves with
  | @made construction given named =>
      have grown : History (construction :: constructions) :=
        .next history fun operand among => available operand (given among)
      refine ⟨[construction], grown, List.forall_mem_cons.2 ⟨?_, ?_⟩, ?_⟩
      · exact ⟨construction, List.mem_cons_self, construction.result.self_mem_listing⟩
      · exact fun process member => (available process (lower member)).later [construction]
      · exact fun given => List.forall_mem_singleton.2 (named given)
  | reused member inside =>
      refine ⟨[], history, List.forall_mem_cons.2 ⟨?_, ?_⟩, fun _ => List.forall_mem_nil _⟩
      · exact (available _ member).inside inside
      · exact fun process member => available process (lower member)

variable {steps : List ConstructionStep}

theorem exists_history_of_steps {constructions : List Construction}
    (history : History constructions)
    (available : ∀ process ∈ stack, Available constructions process)
    (smart : ∀ step ∈ steps, step.Smart) (run : runAll? steps stack = some next) :
    ∃ later, History (later ++ constructions) ∧
      (∀ process ∈ next, Available (later ++ constructions) process) ∧
      ((∀ step ∈ steps, step.WellNamed) → ∀ construction ∈ later, construction.WellNamed) := by
  induction steps generalizing stack constructions with
  | nil =>
      cases run
      exact ⟨[], history, available, fun _ => List.forall_mem_nil _⟩
  | cons step steps induction =>
      obtain ⟨smartStep, smartRest⟩ := List.forall_mem_cons.1 smart
      obtain ⟨between, first, rest⟩ := Option.bind_eq_some_iff.1 run
      obtain ⟨middle, grown, reached, namedStep⟩ :=
        exists_history_of_step history available smartStep first
      obtain ⟨later, whole, left, namedRest⟩ := induction grown reached smartRest rest
      rw [← List.append_assoc] at whole left
      refine ⟨later ++ middle, whole, left, fun named => ?_⟩
      obtain ⟨here, others⟩ := List.forall_mem_cons.1 named
      exact List.forall_mem_append.2 ⟨namedRest others, namedStep here⟩

/-! For every history there is a run that leaves what the history has made. -/

theorem run_all_append (first second : List ConstructionStep) (stack : List ProcessTree) :
    runAll? (first ++ second) stack = (runAll? first stack).bind (runAll? second) := by
  induction first generalizing stack with
  | nil => rfl
  | cons step first induction =>
      simp only [List.cons_append, runAll?]
      cases step.run? stack with
      | none => rfl
      | some next => exact induction next

/-- From any stack the steps leave the processes on top of it, the last one uppermost. -/
structure Build (steps : List ConstructionStep) (processes : List ProcessTree) : Prop where
  smart : ∀ step ∈ steps, step.Smart
  leaves : ∀ stack, runAll? steps stack = some (processes.reverse ++ stack)

theorem Build.append {more : List ConstructionStep} {processes others : List ProcessTree}
    (first : Build steps processes) (second : Build more others) :
    Build (steps ++ more) (processes ++ others) := by
  refine ⟨List.forall_mem_append.2 ⟨first.smart, second.smart⟩, fun stack => ?_⟩
  rw [run_all_append, first.leaves, Option.bind_some, second.leaves]
  simp

/-- One more step after a build, which takes what has been built. -/
theorem Build.append_step {processes : List ProcessTree} {result : ProcessTree}
    (build : Build steps processes) (smart : step.Smart)
    (run : ∀ stack, step.run? (processes.reverse ++ stack) = some (result :: stack)) :
    Build (steps ++ [step]) [result] := by
  have last : ∀ each ∈ [step], each.Smart := List.forall_mem_singleton.2 smart
  refine ⟨List.forall_mem_append.2 ⟨build.smart, last⟩, fun stack => ?_⟩
  rw [run_all_append, build.leaves, Option.bind_some, runAll?, run]
  rfl

theorem exists_build_of_part {process part : ProcessTree} (build : Build steps [process])
    (member : part ∈ process.listing) : ∃ more, Build more [part] := by
  induction process using subprocess_induction generalizing steps with
  | step process parts =>
      rw [listing_eq] at member
      rcases List.mem_cons.1 member with rfl | later
      · exact ⟨steps, build⟩
      · obtain ⟨subprocess, between, inside⟩ := List.mem_flatMap.1 later
        obtain ⟨index, found⟩ := List.mem_iff_getElem?.1 between
        have taken : Build (steps ++ [.subprocess index]) [subprocess] := by
          refine build.append_step trivial fun stack => ?_
          simp [run?, found]
        exact parts subprocess between taken inside

theorem exists_build_of_all {processes : List ProcessTree}
    (each : ∀ process ∈ processes, ∃ steps, Build steps [process]) :
    ∃ steps, Build steps processes := by
  induction processes with
  | nil => exact ⟨[], List.forall_mem_nil _, fun _ => rfl⟩
  | cons process processes induction =>
      obtain ⟨⟨first, builds⟩, others⟩ := List.forall_mem_cons.1 each
      obtain ⟨rest, buildsRest⟩ := induction others
      exact ⟨first ++ rest, builds.append buildsRest⟩

theorem take_operands_append (operands stack : List ProcessTree) :
    takeOperands? operands.length (operands.reverse ++ stack) = some (operands, stack) := by
  have same : operands.length = operands.reverse.length := List.length_reverse.symm
  rw [takeOperands?, if_pos (by simp), same, List.take_left, List.drop_left, List.reverse_reverse]

end ConstructionStep

namespace Construction

/-- The step that makes the construction. -/
def step : Construction → ConstructionStep
  | .nil => .push .nil
  | .int value => .push (.int value)
  | .string value => .push (.string value)
  | .bool value => .push (.bool value)
  | .literal value => .push (.ground value)
  | .send _ _ => .send
  | .receiveOn bindings _ => .receiveOn (bindings.map Prod.fst)
  | .parallel _ _ => .parallel
  | .parallelOf operands => .parallelOf operands.length
  | .restrictNames names _ => .restrictNames names
  | .restrict declarations _ => .restrict declarations
  | .bundle _ => .bundle

theorem smart_step (construction : Construction) : construction.step.Smart := by
  cases construction with
  | nil => exact .inl rfl
  | int | string | bool | literal => exact .inr ⟨_, rfl⟩
  | _ => trivial

/-- The step finds its operands on the stack in the order in which they are given. -/
theorem run_step (construction : Construction) (stack : List ProcessTree) :
    construction.step.run? (construction.operands.reverse ++ stack) =
      some (construction.result :: stack) := by
  cases construction with
  | receiveOn bindings body =>
      have taken := ConstructionStep.take_operands_append (bindings.map Prod.snd) stack
      have count : (bindings.map Prod.fst).length = (bindings.map Prod.snd).length := by simp
      have pairs : (bindings.map Prod.fst).zip (bindings.map Prod.snd) = bindings := by
        rw [← List.unzip_fst, ← List.unzip_snd, List.zip_unzip]
      rw [operands, List.reverse_append, List.reverse_singleton, List.append_assoc]
      simp only [List.singleton_append, step, ConstructionStep.run?, count, taken, Option.map_some,
        pairs, result]
  | parallelOf operands =>
      simp only [Construction.operands, step, ConstructionStep.run?,
        ConstructionStep.take_operands_append, Option.map_some, result]
  | _ => rfl

end Construction

open ConstructionStep

theorem History.exists_build {constructions : List Construction}
    (history : History constructions) :
    ∀ construction ∈ constructions, ∃ steps, Build steps [construction.result] := by
  induction history with
  | start => exact List.forall_mem_nil _
  | @next earlier construction past available induction =>
      have operands : ∀ operand ∈ construction.operands, ∃ steps, Build steps [operand] := by
        intro operand among
        obtain ⟨source, before, inside⟩ := available operand among
        obtain ⟨steps, build⟩ := induction source before
        exact exists_build_of_part build inside
      obtain ⟨steps, build⟩ := exists_build_of_all operands
      have whole := build.append_step construction.smart_step construction.run_step
      exact List.forall_mem_cons.2 ⟨⟨_, whole⟩, induction⟩

/-- The results of a history, and the processes inside them, are what runs can leave on top. -/
theorem available_iff_run {process : ProcessTree} :
    (∃ constructions, History constructions ∧ Available constructions process) ↔
      ∃ steps stack, (∀ step ∈ steps, ConstructionStep.Smart step) ∧
        runAll? steps [] = some (process :: stack) := by
  constructor
  · rintro ⟨constructions, history, source, among, inside⟩
    obtain ⟨_, build⟩ := history.exists_build source among
    obtain ⟨steps, onTop⟩ := exists_build_of_part build inside
    exact ⟨steps, [], onTop.smart, onTop.leaves []⟩
  · rintro ⟨steps, stack, smart, run⟩
    obtain ⟨constructions, history, left, -⟩ :=
      exists_history_of_steps .start (List.forall_mem_nil _) smart run
    rw [List.append_nil] at history left
    exact ⟨constructions, history, left process List.mem_cons_self⟩

/-- What a run from the empty stack leaves is flat everywhere. If what the steps are given can be
written down, it is printed and read back from its text. -/
theorem run_leaves_flat_trees {steps : List ConstructionStep} {stack : List ProcessTree}
    (smart : ∀ step ∈ steps, step.Smart) (run : runAll? steps [] = some stack) :
    ∀ process ∈ stack,
      Everywhere Flat process ∧
        ((∀ step ∈ steps, step.WellNamed) →
          ∃ text, process.toSource = .ok text ∧
            ∀ options, ProcessTree.parse options text = .ok process) := by
  obtain ⟨constructions, history, left, named⟩ :=
    exists_history_of_steps .start (List.forall_mem_nil _) smart run
  rw [List.append_nil] at history left
  intro process member
  obtain ⟨source, among, inside⟩ := left process member
  have flat := (history.everywhere (fun each _ => each.result_flat) source among).inside inside
  refine ⟨flat, fun given => ?_⟩
  have names : ∀ construction ∈ constructions, construction.WellNamed := named given
  have writable := history.everywhere (fun each among => each.result_well_named (names each among))
    source among
  exact reads_back_of_printable (printable_of_everywhere flat (writable.inside inside))

end RhoFrontend
