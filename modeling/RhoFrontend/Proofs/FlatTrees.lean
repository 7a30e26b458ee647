import RhoFrontend.Proofs.Composing
import RhoFrontend.Proofs.Json.Decoding
import RhoFrontend.Proofs.Traversal

/-!
Trees that are put together with the constructors alone, in any order and with any part of what is
there used again. No constructor brings in a parallel composition that is not flat, so such a tree
can be written down and read again whenever its names and texts can.
-/

namespace RhoFrontend

/-- A literal in which no quote would end a string early. -/
def Ground.Unquoted (literal : Ground) : Prop :=
  ∀ content, literal = .string content → '"' ∉ content.toList

/-- A declared name is an identifier, and nothing in its uri would end the uri early. -/
def Declaration.WellNamed (declaration : Declaration) : Prop :=
  IsIdentifier declaration.name ∧ ∀ uri ∈ declaration.uri, '\x60' ∉ uri.toList

theorem Ground.Unquoted.reads_back {literal : Ground} (unquoted : literal.Unquoted) :
    (Token.ofGround literal).ReadsBack := by
  cases literal with
  | int value => exact Token.integer_reads_back value
  | string content => exact Token.string_reads_back (unquoted content rfl)
  | bool value => exact Token.word_reads_back _

theorem Declaration.WellNamed.read_back {declaration : Declaration}
    (named : declaration.WellNamed) :
    Token.AllReadBack (Token.ofDeclaration declaration) := by
  obtain ⟨name, uri⟩ := declaration
  obtain ⟨identifier, unquoted⟩ := named
  have nameRead := identifier.reads_back
  cases uri with
  | none => simpa [Token.ofDeclaration] using nameRead
  | some resource =>
      have uriRead := Token.uri_reads_back (unquoted resource rfl)
      simp [Token.ofDeclaration, nameRead, uriRead]

namespace ProcessTree

/-- The property holds of the process and of every process inside it. -/
def Everywhere (holds : ProcessTree → Prop) (tree : ProcessTree) : Prop :=
  ∀ part ∈ tree.listing, holds part

/-- A parallel composition has two operands or more, and none of them is one itself. -/
def Flat (tree : ProcessTree) : Prop :=
  ∀ operands, tree = .par operands →
    2 ≤ operands.length ∧ ∀ operand ∈ operands, operand.isPar = false

/-- What the process itself holds besides other processes can be written down. -/
def WellNamed : ProcessTree → Prop
  | .ground literal => literal.Unquoted
  | .receive actions _ => actions ≠ [] ∧ ∀ action ∈ actions, IsIdentifier action.pattern.name
  | .restrict declarations _ =>
      declarations ≠ [] ∧ ∀ declaration ∈ declarations, declaration.WellNamed
  | .nil | .send _ _ | .par _ | .bundle _ => True

section Everywhere

variable {holds : ProcessTree → Prop} {tree : ProcessTree}

theorem Everywhere.here (all : Everywhere holds tree) : holds tree := all tree tree.self_mem_listing

theorem Everywhere.inside (all : Everywhere holds tree) {part : ProcessTree}
    (member : part ∈ tree.listing) : Everywhere holds part :=
  fun _ deeper => all _ (mem_listing_trans member deeper)

theorem everywhere_iff : Everywhere holds tree ↔
    holds tree ∧ ∀ part ∈ tree.subprocesses, Everywhere holds part := by
  constructor
  · exact fun all => ⟨all.here, fun part member => all.inside (subprocess_mem_listing member)⟩
  · rintro ⟨root, parts⟩ part member
    rw [listing_eq] at member
    rcases List.mem_cons.1 member with rfl | later
    · exact root
    · obtain ⟨subprocess, between, inside⟩ := List.mem_flatMap.1 later
      exact parts subprocess between part inside

end Everywhere

/-- Nothing but these two local conditions keeps a tree from being written down. -/
theorem printable_of_everywhere {tree : ProcessTree} (flat : Everywhere Flat tree)
    (named : Everywhere WellNamed tree) : tree.Printable := by
  induction tree using subprocess_induction with
  | step tree parts =>
      obtain ⟨flatHere, flatParts⟩ := everywhere_iff.1 flat
      obtain ⟨namedHere, namedParts⟩ := everywhere_iff.1 named
      have inner : ∀ part ∈ tree.subprocesses, part.Printable := fun part member =>
        parts part member (flatParts part member) (namedParts part member)
      cases tree with
      | nil => exact .nil
      | ground literal => exact .ground namedHere.reads_back
      | send channel message =>
          exact .send (inner _ List.mem_cons_self)
            (inner _ (List.mem_cons_of_mem _ List.mem_cons_self))
      | receive actions body =>
          obtain ⟨nonempty, identifiers⟩ := namedHere
          exact .receive nonempty (fun action member => (identifiers action member).reads_back)
            (fun action member => inner _ (channel_mem_subprocesses member))
            (inner _ body_mem_subprocesses)
      | par operands =>
          obtain ⟨several, apart⟩ := flatHere operands rfl
          exact .par several apart inner
      | restrict declarations body =>
          obtain ⟨nonempty, identifiers⟩ := namedHere
          exact .restrict nonempty
            (fun declaration member => (identifiers declaration member).read_back)
            (inner _ List.mem_cons_self)
      | bundle body => exact .bundle (inner _ List.mem_cons_self)

theorem reads_back_of_printable {tree : ProcessTree} (printable : tree.Printable) :
    ∃ text, tree.toSource = .ok text ∧
      ∀ options, ProcessTree.parse options text = .ok tree := by
  refine ⟨_, to_source_of_printable printable, fun options => ?_⟩
  obtain ⟨spanned, lexed, same⟩ := SourceText.exists_spanned_of_tokens options
    (tokens_read_back printable) (tokens_apart printable)
  rw [parse_ok_iff_derivations, derivations_ok_iff (by rwa [String.toList_ofList])]
  exact ⟨tree, rfl, same ▸ derives_tokens printable⟩

/-! What splicing takes out of its operands. -/

theorem mem_listing_of_operand {tree part : ProcessTree} (member : part ∈ tree.operandsOf) :
    part ∈ tree.listing := by
  cases tree with
  | par operands => exact subprocess_mem_listing member
  | _ =>
      rw [List.mem_singleton.1 member]
      exact self_mem_listing _

theorem exists_of_mem_spliced {operands : List ProcessTree} {part : ProcessTree}
    (member : part ∈ spliced operands) : ∃ operand ∈ operands, part ∈ operand.listing := by
  obtain ⟨operand, among, inside⟩ := List.mem_flatMap.1 member
  exact ⟨operand, among, mem_listing_of_operand inside⟩

/-- A composition that is flat gives up its operands, and these stay apart. -/
theorem Flat.operands_of {tree : ProcessTree} (flat : tree.Flat) :
    tree.operandsOf ≠ [] ∧ ∀ part ∈ tree.operandsOf, part.isPar = false := by
  cases tree with
  | par operands =>
      obtain ⟨several, apart⟩ := flat operands rfl
      refine ⟨?_, apart⟩
      rintro (rfl : operands = [])
      cases several
  | _ => exact ⟨List.cons_ne_nil _ _, List.forall_mem_singleton.2 rfl⟩

theorem flat_of_spliced {operands : List ProcessTree} (flat : ∀ operand ∈ operands, operand.Flat)
    (several : 2 ≤ (spliced operands).length) : Flat (.par (spliced operands)) := by
  rintro _ ⟨⟩
  refine ⟨several, fun part member => ?_⟩
  obtain ⟨operand, among, inside⟩ := List.mem_flatMap.1 member
  exact (flat operand among).operands_of.2 part inside

/-- All direct subprocesses of the tree come from inside the operands. -/
def MadeOf (operands : List ProcessTree) (tree : ProcessTree) : Prop :=
  ∀ part ∈ tree.subprocesses, ∃ operand ∈ operands, part ∈ operand.listing

theorem made_of_self {operands : List ProcessTree} {tree : ProcessTree}
    (given : tree.subprocesses ⊆ operands) : MadeOf operands tree :=
  fun part member => ⟨part, given member, part.self_mem_listing⟩

/-- Any number of operands make `nil`, something that was there before, or a composition. -/
theorem holds_of_parallel_of {holds : ProcessTree → Prop} {operands : List ProcessTree}
    (none : holds .nil) (single : ∀ operand ∈ operands, Everywhere holds operand)
    (several : 2 ≤ (spliced operands).length → holds (.par (spliced operands))) :
    holds (parallelOf operands) := by
  cases pieces : spliced operands with
  | nil => rwa [parallelOf, pieces]
  | cons first rest =>
      cases rest with
      | nil =>
          -- What stays alone is not wrapped, so it brings along whatever it was before.
          have member : first ∈ spliced operands := pieces ▸ List.mem_singleton_self first
          obtain ⟨operand, among, inside⟩ := exists_of_mem_spliced member
          rw [parallelOf, pieces]
          exact single operand among first inside
      | cons second rest =>
          have enough : 2 ≤ (spliced operands).length := by
            rw [pieces]
            exact Nat.le_add_left 2 rest.length
          rw [parallel_of_several enough]
          exact several enough

end ProcessTree

open ProcessTree

/-- One use of a constructor, with all that it is given. -/
inductive Construction
  | nil
  | int (value : Int64)
  | string (value : String)
  | bool (value : Bool)
  | literal (value : Ground)
  | send (channel message : ProcessTree)
  | receiveOn (bindings : List (String × ProcessTree)) (body : ProcessTree)
  | parallel (left right : ProcessTree)
  | parallelOf (operands : List ProcessTree)
  | restrictNames (names : List String) (body : ProcessTree)
  | restrict (declarations : List Declaration) (body : ProcessTree)
  | bundle (body : ProcessTree)

namespace Construction

/-- The processes among what the constructor is given. -/
def operands : Construction → List ProcessTree
  | .nil | .int _ | .string _ | .bool _ | .literal _ => []
  | .send channel message => [channel, message]
  | .receiveOn bindings body => bindings.map Prod.snd ++ [body]
  | .parallel left right => [left, right]
  | .parallelOf operands => operands
  | .restrictNames _ body | .restrict _ body | .bundle body => [body]

def result : Construction → ProcessTree
  | .nil => .nil
  | .int value => .int value
  | .string value => .string value
  | .bool value => .bool value
  | .literal value => .ground value
  | .send channel message => .send channel message
  | .receiveOn bindings body => .receiveOn bindings body
  | .parallel left right => .parallel left right
  | .parallelOf operands => .parallelOf operands
  | .restrictNames names body => .restrictNames names body
  | .restrict declarations body => .restrict declarations body
  | .bundle body => .bundle body

/-- Names are given wherever there have to be some, they are identifiers, and no text would end
early in print. -/
def WellNamed : Construction → Prop
  | .string value => '"' ∉ value.toList
  | .literal value => value.Unquoted
  | .receiveOn bindings _ => bindings ≠ [] ∧ ∀ binding ∈ bindings, IsIdentifier binding.1
  | .restrictNames names _ => names ≠ [] ∧ ∀ name ∈ names, IsIdentifier name
  | .restrict declarations _ =>
      declarations ≠ [] ∧ ∀ declaration ∈ declarations, declaration.WellNamed
  | .nil | .int _ | .bool _ | .send _ _ | .parallel _ _ | .parallelOf _ | .bundle _ => True

variable {construction : Construction}

/-- A constructor puts its result around parts of its operands and adds no other process. -/
theorem result_made_of : MadeOf construction.operands construction.result := by
  cases construction with
  | nil | int | string | bool | literal => exact List.forall_mem_nil _
  | send | restrictNames | restrict | bundle => exact made_of_self fun _ member => member
  | receiveOn bindings body =>
      apply made_of_self
      rw [result, operands, ProcessTree.receiveOn, subprocesses, List.map_map]
      exact fun _ member => member
  | parallel left right => exact fun _ member => exists_of_mem_spliced member
  | parallelOf operands =>
      apply holds_of_parallel_of (List.forall_mem_nil _)
      · intro operand among tree inside part member
        exact ⟨operand, among, mem_listing_trans inside (subprocess_mem_listing member)⟩
      · exact fun _ _ member => exists_of_mem_spliced member

/-- What holds everywhere in the operands and of the result itself holds everywhere in it. -/
theorem everywhere_result {holds : ProcessTree → Prop}
    (given : ∀ operand ∈ construction.operands, Everywhere holds operand)
    (made : holds construction.result) : Everywhere holds construction.result := by
  refine everywhere_iff.2 ⟨made, fun part member => ?_⟩
  obtain ⟨operand, among, inside⟩ := construction.result_made_of part member
  exact (given operand among).inside inside

theorem result_flat (given : ∀ operand ∈ construction.operands, Everywhere Flat operand) :
    Flat construction.result := by
  have flat : ∀ operand ∈ construction.operands, operand.Flat :=
    fun operand among => (given operand among).here
  cases construction with
  | parallel left right =>
      apply flat_of_spliced flat
      exact length_le_spliced fun operand among => (flat operand among).operands_of.1
  | parallelOf operands => exact holds_of_parallel_of nofun given (flat_of_spliced flat)
  | _ => exact nofun

theorem result_well_named (named : construction.WellNamed)
    (given : ∀ operand ∈ construction.operands, Everywhere ProcessTree.WellNamed operand) :
    construction.result.WellNamed := by
  cases construction with
  | nil | send | parallel | bundle => trivial
  | int | bool => exact nofun
  | string value =>
      rintro _ ⟨⟩
      exact named
  | literal | restrict => exact named
  | receiveOn bindings body =>
      obtain ⟨nonempty, identifiers⟩ := named
      exact ⟨mt List.map_eq_nil_iff.1 nonempty, List.forall_mem_map.2 identifiers⟩
  | restrictNames names body =>
      obtain ⟨nonempty, identifiers⟩ := named
      refine ⟨mt List.map_eq_nil_iff.1 nonempty, List.forall_mem_map.2 fun name member => ?_⟩
      exact ⟨identifiers name member, nofun⟩
  | parallelOf operands => exact holds_of_parallel_of trivial given fun _ => trivial

end Construction

/-- A sequence of constructions, the latest first. It starts from nothing, and every operand is the
result of an earlier construction or some process inside such a result. -/
inductive History : List Construction → Prop
  | start : History []
  | next {earlier : List Construction} {construction : Construction} (past : History earlier)
      (available : ∀ operand ∈ construction.operands,
        ∃ source ∈ earlier, operand ∈ source.result.listing) :
      History (construction :: earlier)

/-- What each construction keeps holds everywhere in all results. -/
theorem History.everywhere {holds : ProcessTree → Prop} {constructions : List Construction}
    (history : History constructions)
    (keeps : ∀ construction ∈ constructions,
      (∀ operand ∈ construction.operands, Everywhere holds operand) →
        holds construction.result) :
    ∀ construction ∈ constructions, Everywhere holds construction.result := by
  -- Operands may come from anywhere in the past, so the results of all earlier constructions are
  -- carried along, not only the latest one.
  induction history with
  | start => exact List.forall_mem_nil _
  | @next earlier construction past available induction =>
      obtain ⟨keepsLatest, keepsEarlier⟩ := List.forall_mem_cons.1 keeps
      have results := induction keepsEarlier
      have given : ∀ operand ∈ construction.operands, Everywhere holds operand := by
        intro operand among
        obtain ⟨source, before, inside⟩ := available operand among
        exact (results source before).inside inside
      exact List.forall_mem_cons.2 ⟨construction.everywhere_result given (keepsLatest given), results⟩

/-- Whatever is put together with the constructors is flat everywhere. If what they are given can be
written down, so can the result, and it is read back from its text. -/
theorem constructed_trees_read_back {constructions : List Construction}
    (history : History constructions) :
    ∀ construction ∈ constructions,
      (∀ part ∈ construction.result.listing, part.Flat) ∧
        ((∀ given ∈ constructions, given.WellNamed) →
          ∃ text, construction.result.toSource = .ok text ∧
            ∀ options, ProcessTree.parse options text = .ok construction.result) := by
  intro construction member
  have flat := history.everywhere (fun each _ => each.result_flat) construction member
  refine ⟨flat, fun named => ?_⟩
  have writable := history.everywhere (fun each among => each.result_well_named (named each among))
    construction member
  exact reads_back_of_printable (printable_of_everywhere flat writable)

/-- A chain that dissolves beside a receive and is whole in the channel of the receive. -/
def reusedChainTree : ProcessTree :=
  let chain := ProcessTree.par [.nil, .ground (.string "a|b")]
  .restrict [⟨"x", some "u"⟩]
    (.par [.nil, .ground (.string "a|b"), .receive [⟨⟨"x"⟩, chain⟩] .nil])

def reusedChain : List Construction :=
  let chain := ProcessTree.par [.nil, .ground (.string "a|b")]
  let receive := ProcessTree.receive [⟨⟨"x"⟩, chain⟩] .nil
  [.restrict [⟨"x", some "u"⟩] (.par [.nil, .ground (.string "a|b"), receive]),
    .parallelOf [chain, receive], .receiveOn [("x", chain)] .nil,
    .parallel .nil (.ground (.string "a|b")), .literal (.string "a|b"), .nil]

private theorem available_of_results {operands : List ProcessTree} {earlier : List Construction}
    (results : ∀ operand ∈ operands, operand ∈ earlier.map Construction.result) :
    ∀ operand ∈ operands, ∃ source ∈ earlier, operand ∈ source.result.listing := by
  intro operand among
  obtain ⟨source, before, rfl⟩ := List.mem_map.1 (results operand among)
  exact ⟨source, before, source.result.self_mem_listing⟩

theorem constructed_trees_read_back_reused_chain :
    History reusedChain ∧ (∀ given ∈ reusedChain, given.WellNamed) ∧
      (∀ part ∈ reusedChainTree.listing, part.Flat) ∧
        ∃ text, reusedChainTree.toSource = .ok text ∧
          ∀ options, ProcessTree.parse options text = .ok reusedChainTree := by
  have history : History reusedChain := by
    refine .next (.next (.next (.next (.next (.next .start ?_) ?_) ?_) ?_) ?_) ?_
    all_goals exact available_of_results (by decide)
  have name : IsIdentifier "x" := by
    refine ⟨.identifier (.inl rfl) (List.forall_mem_nil _), fun keyword => ?_⟩
    cases keyword <;> decide
  have unquoted : Ground.Unquoted (.string "a|b") := by
    rintro _ ⟨⟩
    decide
  have named : ∀ given ∈ reusedChain, given.WellNamed := by
    simp [reusedChain, Construction.WellNamed, Declaration.WellNamed, name, unquoted]
  obtain ⟨flat, readsBack⟩ := constructed_trees_read_back history _ List.mem_cons_self
  exact ⟨history, named, flat, readsBack named⟩

end RhoFrontend
