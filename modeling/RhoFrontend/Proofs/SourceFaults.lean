import RhoFrontend.Proofs.FlatTrees
import RhoFrontend.Proofs.Places

/-!
The trees that have no source text, and the reason that is given for each. A tree has a source text
exactly if all its nodes are such as the grammar has them, and so exactly if some source is read as
it. Otherwise the reason is the one for the first node in the order of the walk that is not.
-/

namespace RhoFrontend

theorem IsIdentifier.of_reads_back {name : String} (readsBack : (Token.identifier name).ReadsBack) :
    IsIdentifier name := by
  have written : (Token.identifier name).Spelled name.toList := readsBack
  generalize isToken : Token.identifier name = token at written
  generalize letters : name.toList = text at written
  cases written with
  | @word first rest starts parts =>
      constructor
      · rw [letters, ← String.ofList_toList (s := name), letters]
        exact .identifier ((Rule.name_start_iff first).2 starts)
          fun char member => (Rule.name_part_iff char).2 (parts char member)
      · intro keyword same
        have known := Token.of_word_spelling keyword
        rw [same, letters, ← isToken] at known
        cases known
  | _ => cases isToken

theorem spelled_keyword_iff {word : Keyword} {name : String} :
    (Token.keyword word).Spelled name.toList ↔ word.spelling = name := by
  constructor
  · intro spelled
    generalize isToken : Token.keyword word = token at spelled
    generalize letters : name.toList = text at spelled
    cases spelled with
    | @word first rest =>
        rw [← letters] at isToken
        unfold Lexeme.ofWord at isToken
        split at isToken
        · next found =>
            cases isToken
            rw [String.ofList_toList] at found
            exact Lexeme.of_spelling_eq_some_iff.1 found
        · cases isToken
    | _ => cases isToken
  · rintro rfl
    exact Token.word_reads_back word

namespace Unprintable

/-- What is wrong with a name: it is a keyword, or else no identifier. -/
inductive OfName (name : String) : Unprintable → Prop
  | keyword (word : Keyword) (same : word.spelling = name) : OfName name (.keywordName name)
  | other (noKeyword : ∀ word : Keyword, word.spelling ≠ name) (noName : ¬ IsIdentifier name) :
      OfName name (.notIdentifier name)

theorem of_name_of_keyword {name : String} {word : Keyword} (same : word.spelling = name) :
    ofName name = [.keywordName name] := by
  have read : (Piece.ofText name.toList).map Piece.lexeme = [.token (.keyword word)] :=
    Piece.lexemes_eq_token_iff.2 (spelled_keyword_iff.2 same)
  simp only [ofName, read]

theorem of_name_of_other {name : String} (noKeyword : ∀ word : Keyword, word.spelling ≠ name)
    (noName : ¬ IsIdentifier name) : ofName name = [.notIdentifier name] := by
  have unclean : ofName name ≠ [] := fun clean =>
    noName (.of_reads_back (Token.identifier_reads_back clean))
  unfold ofName at unclean ⊢
  split
  · next lexemes => simp [lexemes] at unclean
  · next word lexemes =>
      have same := spelled_keyword_iff.1 (Piece.lexemes_eq_token_iff.1 lexemes)
      exact absurd same (noKeyword word)
  · rfl

theorem head_of_name_iff {name : String} {fault : Unprintable} :
    (ofName name).head? = some fault ↔ OfName name fault := by
  constructor
  · intro first
    by_cases keyword : ∃ word : Keyword, word.spelling = name
    · obtain ⟨word, same⟩ := keyword
      rw [of_name_of_keyword same] at first
      cases first
      exact .keyword word same
    · have noKeyword := not_exists.1 keyword
      by_cases identifier : IsIdentifier name
      · rw [of_name_eq_nil identifier.reads_back] at first
        cases first
      · rw [of_name_of_other noKeyword identifier] at first
        cases first
        exact .other noKeyword identifier
  · rintro (⟨word, same⟩ | ⟨noKeyword, noName⟩)
    · rw [of_name_of_keyword same, List.head?_cons]
    · rw [of_name_of_other noKeyword noName, List.head?_cons]

theorem of_name_eq_nil_iff {name : String} : ofName name = [] ↔ IsIdentifier name :=
  ⟨fun clean => .of_reads_back (Token.identifier_reads_back clean),
    fun identifier => of_name_eq_nil identifier.reads_back⟩

end Unprintable

/-! What is wrong at one node, where its parent is known. -/

namespace Node

/-- The node is a parallel composition. -/
def IsPar (node : Node) : Prop := ∃ operands, node = .ofProcess (.par operands)

/-- The reason why a node cannot be written where it stands. Only the first one counts: a chain
inside a chain is wrong however many operands it has, and a name comes before its uri. -/
inductive Faulty (parent : Option Node) : Node → Unprintable → Prop
  | nested {operands : List ProcessTree} (inside : ∃ outer ∈ parent, outer.IsPar) :
      Faulty parent (.ofProcess (.par operands)) .nestedPar
  | few {operands : List ProcessTree} (apart : ¬ ∃ outer ∈ parent, outer.IsPar)
      (few : operands.length < 2) : Faulty parent (.ofProcess (.par operands)) .fewOperands
  | quoted {value : String} (quote : '"' ∈ value.toList) :
      Faulty parent (.ofProcess (.ground (.string value))) (.quoteInString value)
  | noActions {body : ProcessTree} : Faulty parent (.ofProcess (.receive [] body)) .noActions
  | noNames {body : ProcessTree} : Faulty parent (.ofProcess (.restrict [] body)) .noNames
  | bound {name : String} {fault : Unprintable} (wrong : Unprintable.OfName name fault) :
      Faulty parent (.ofPattern ⟨name⟩) fault
  | declared {name : String} {uri : Option String} {fault : Unprintable}
      (wrong : Unprintable.OfName name fault) : Faulty parent (.ofDeclaration ⟨name, uri⟩) fault
  | uri {name uri : String} (named : IsIdentifier name) (backtick : '\x60' ∈ uri.toList) :
      Faulty parent (.ofDeclaration ⟨name, some uri⟩) (.backtickInUri uri)

/-- The node at a place cannot be written for this reason. -/
def FaultyAt (root : Node) (place : List Nat) (fault : Unprintable) : Prop :=
  ∃ node, root.nodeAt? place = some node ∧ node.Faulty (root.parentAt? place) fault

/-- Whether a parallel composition has no place here. -/
def chained : Option Node → Bool
  | some (.ofProcess process) => process.isPar
  | _ => false

/-- What is wrong with the node itself. -/
def faults (parent : Option Node) : Node → List Unprintable
  | .ofProcess (.ground value) => Unprintable.ofGround value
  | .ofProcess (.receive actions _) => if actions.isEmpty then [.noActions] else []
  | .ofProcess (.par operands) =>
      (if chained parent then [.nestedPar] else []) ++
        (if operands.length < 2 then [.fewOperands] else [])
  | .ofProcess (.restrict declarations _) => if declarations.isEmpty then [.noNames] else []
  | .ofProcess _ | .ofAction _ => []
  | .ofPattern pattern => Unprintable.ofName pattern.name
  | .ofDeclaration declaration => Unprintable.ofDeclaration declaration

/-- What is wrong with the node and with everything under it, in the order of the text. -/
def allFaults (parent : Option Node) : Node → List Unprintable
  | .ofProcess process =>
      (if chained parent && process.isPar then [.nestedPar] else []) ++ process.unprintable
  | .ofAction action => Unprintable.ofName action.pattern.name ++ action.channel.unprintable
  | .ofPattern pattern => Unprintable.ofName pattern.name
  | .ofDeclaration declaration => Unprintable.ofDeclaration declaration

theorem chained_iff {parent : Option Node} :
    chained parent = true ↔ ∃ outer ∈ parent, outer.IsPar := by
  rcases parent with _ | (process | action | pattern | declaration)
  · simp [chained]
  · cases process <;> simp [chained, IsPar, ProcessTree.isPar]
  all_goals simp [chained, IsPar]

theorem faulty_of_head {parent : Option Node} {node : Node} {fault : Unprintable}
    (first : (node.faults parent).head? = some fault) : node.Faulty parent fault := by
  rcases node with process | action | pattern | ⟨name, uri⟩
  · cases process with
    | ground value =>
        cases value with
        | string value =>
            by_cases quote : '"' ∈ value.toList
            · simp only [faults, Unprintable.ofGround, if_pos quote] at first
              cases first
              exact .quoted quote
            · simp [faults, Unprintable.ofGround, quote] at first
        | _ => cases first
    | receive actions body =>
        cases actions with
        | nil =>
            cases first
            exact .noActions
        | cons => cases first
    | par operands =>
        by_cases inside : chained parent = true
        · simp only [faults, if_pos inside] at first
          cases first
          exact .nested (chained_iff.1 inside)
        · by_cases few : operands.length < 2
          · simp only [faults, if_neg inside, if_pos few] at first
            cases first
            exact .few (mt chained_iff.2 inside) few
          · simp [faults, inside, few] at first
    | restrict declarations body =>
        cases declarations with
        | nil =>
            cases first
            exact .noNames
        | cons => cases first
    | _ => cases first
  · cases first
  · exact .bound (Unprintable.head_of_name_iff.1 first)
  · by_cases named : IsIdentifier name
    · simp only [faults, Unprintable.ofDeclaration, Unprintable.of_name_eq_nil_iff.2 named] at first
      cases uri with
      | none => cases first
      | some uri =>
          by_cases backtick : '\x60' ∈ uri.toList
          · simp only [Option.toList, List.flatMap_singleton, Unprintable.ofUri,
              if_pos backtick] at first
            cases first
            exact .uri named backtick
          · simp [Unprintable.ofUri, backtick] at first
    · have wrong := mt Unprintable.of_name_eq_nil_iff.1 named
      rw [faults, Unprintable.ofDeclaration, List.head?_append_of_ne_nil _ wrong] at first
      exact .declared (Unprintable.head_of_name_iff.1 first)

theorem Faulty.head {parent : Option Node} {node : Node} {fault : Unprintable}
    (faulty : node.Faulty parent fault) : (node.faults parent).head? = some fault := by
  cases faulty with
  | nested inside => simp [faults, chained_iff.2 inside]
  | few apart few => simp [faults, mt chained_iff.1 apart, few]
  | quoted quote => simp [faults, Unprintable.ofGround, quote]
  | noActions | noNames => rfl
  | bound wrong => exact Unprintable.head_of_name_iff.2 wrong
  | declared wrong =>
      have first := Unprintable.head_of_name_iff.2 wrong
      rw [faults, Unprintable.ofDeclaration, List.head?_append, first, Option.some_or]
  | uri named backtick =>
      simp [faults, Unprintable.ofDeclaration, Unprintable.of_name_eq_nil_iff.2 named,
        Unprintable.ofUri, backtick]

theorem faults_of_actions (actions : List Action) (parent : Option Node) :
    Action.listUnprintable actions = (actions.map ofAction).flatMap (allFaults parent) := by
  induction actions with
  | nil => rfl
  | cons first rest induction =>
      obtain ⟨pattern, channel⟩ := first
      simp [Action.listUnprintable, Pattern.boundNames, allFaults, induction]

theorem faults_of_operands (operands all : List ProcessTree) :
    ProcessTree.listUnprintable operands =
      (operands.map ofProcess).flatMap (allFaults (some (.ofProcess (.par all)))) := by
  induction operands with
  | nil => rfl
  | cons first rest induction =>
      have composed : chained (some (.ofProcess (.par all))) = true := rfl
      simp [ProcessTree.listUnprintable, allFaults, composed, induction]

/-- The order of the text is the order of the walk: a node comes before its children. -/
theorem all_faults_eq (parent : Option Node) (node : Node) : node.allFaults parent =
    node.faults parent ++ node.children.flatMap (allFaults (some node)) := by
  rcases node with process | action | pattern | declaration
  · cases process with
    | nil | ground | send | bundle =>
        simp [allFaults, faults, children, chained, ProcessTree.unprintable, ProcessTree.isPar]
    | receive actions body =>
        simp [allFaults, faults, children, chained, ProcessTree.unprintable, ProcessTree.isPar,
          faults_of_actions actions (some (.ofProcess (.receive actions body)))]
    | par operands =>
        simp [allFaults, faults, children, ProcessTree.unprintable, ProcessTree.isPar,
          faults_of_operands operands operands]
    | restrict declarations body =>
        simp [allFaults, faults, children, chained, ProcessTree.unprintable, ProcessTree.isPar,
          List.flatMap_map]
  · simp [allFaults, faults, children, chained]
  · simp [allFaults, faults, children]
  · simp [allFaults, faults, children]

/-- All faults of a tree below a given node are those of its places, one place after another. -/
theorem all_faults_eq_places (parent : Option Node) (root : Node) :
    root.allFaults parent = root.places.flatMap fun place => (root.nodeAt? place).toList.flatMap
      (faults (if place = [] then parent else root.parentAt? place)) := by
  induction root using child_induction generalizing parent with
  | step root induction =>
      have below : ∀ (child : Node) (position : Nat), root.children[position]? = some child →
          (child.places.flatMap fun deeper => (root.nodeAt? (position :: deeper)).toList.flatMap
            (faults (if position :: deeper = [] then parent
              else root.parentAt? (position :: deeper)))) = child.allFaults (some root) := by
        intro child position here
        rw [induction child (List.mem_of_getElem? here)]
        apply List.flatMap_congr
        intro deeper member
        rw [node_at_cons here, if_neg (List.cons_ne_nil position deeper)]
        by_cases direct : deeper = []
        · rw [if_pos direct, direct, parent_at_child]
        · rw [if_neg direct, parent_at_cons here direct]
      rw [flat_map_places_of_children below, all_faults_eq]
      simp [nodeAt?]

/-- The first fault on the walk, where nothing is known about the root's surroundings. -/
theorem head_of_all_faults_iff {root : Node} {fault : Unprintable} :
    (root.allFaults none).head? = some fault ↔ ∃ place, root.FaultyAt place fault ∧
      ∀ earlier < place, ∀ other, ¬ root.FaultyAt earlier other := by
  let found (place : List Nat) : List Unprintable :=
    (root.nodeAt? place).toList.flatMap (faults (root.parentAt? place))
  have all : root.allFaults none = root.places.flatMap found := by
    rw [all_faults_eq_places]
    apply List.flatMap_congr
    intro place member
    by_cases top : place = []
    · simp only [found, top, parentAt?, if_true]
    · simp only [found, if_neg top]
  have first : ∀ place fault, (found place).head? = some fault ↔ root.FaultyAt place fault := by
    intro place fault
    unfold found FaultyAt
    cases here : root.nodeAt? place with
    | none => simp
    | some node =>
        simp only [Option.toList, List.flatMap_singleton, Option.some.injEq, exists_eq_left']
        exact ⟨faulty_of_head, Faulty.head⟩
  have clean : ∀ place, (found place).head? = none ↔ ∀ other, ¬ root.FaultyAt place other := by
    intro place
    simp only [Option.eq_none_iff_forall_ne_some, ne_eq, first]
  have outside : ∀ place, root.nodeAt? place = none → (found place).head? = none := by
    intro place leadsNowhere
    simp only [found, leadsNowhere, Option.toList, List.flatMap_nil, List.head?_nil]
  rw [all, List.head?_flatMap, find_some_places_iff outside]
  simp only [first, clean]

end Node

/-! The trees without a fault. -/

namespace ProcessTree

theorem unprintable_eq_all_faults (process : ProcessTree) :
    process.unprintable = (Node.ofProcess process).allFaults none := rfl

theorem to_source_error_iff {process : ProcessTree} {fault : Unprintable} :
    process.toSource = .error fault ↔ process.unprintable.head? = some fault := by
  unfold toSource
  split
  · next clean => simp [clean]
  · next first rest found => simp [found]

theorem unquoted_of_reads_back {literal : Ground} (readsBack : (Token.ofGround literal).ReadsBack) :
    literal.Unquoted := by
  rintro content rfl
  exact Token.unquoted_of_spelled_string readsBack

theorem well_named_of_read_back {declaration : Declaration}
    (readBack : Token.AllReadBack (Token.ofDeclaration declaration)) : declaration.WellNamed := by
  obtain ⟨name, uri⟩ := declaration
  cases uri with
  | none => exact ⟨.of_reads_back (readBack _ (by simp [Token.ofDeclaration])), nofun⟩
  | some resource =>
      refine ⟨.of_reads_back (readBack _ (by simp [Token.ofDeclaration])), ?_⟩
      rintro _ ⟨⟩
      exact Token.unquoted_of_spelled_uri (readBack _ (by simp [Token.ofDeclaration]))

theorem flat_of_single {tree : ProcessTree} (single : tree.isPar = false) : tree.Flat := by
  rintro operands rfl
  cases single

theorem everywhere_of_printable {tree : ProcessTree} (printable : tree.Printable) :
    Everywhere (fun part => part.Flat ∧ part.WellNamed) tree := by
  induction printable with
  | nil => exact everywhere_iff.2 ⟨⟨flat_of_single rfl, trivial⟩, List.forall_mem_nil _⟩
  | ground readsBack =>
      have unquoted := unquoted_of_reads_back readsBack
      exact everywhere_iff.2 ⟨⟨flat_of_single rfl, unquoted⟩, List.forall_mem_nil _⟩
  | send _ _ channel message =>
      refine everywhere_iff.2 ⟨⟨flat_of_single rfl, trivial⟩, ?_⟩
      simpa [subprocesses] using And.intro channel message
  | receive nonempty names _ _ channels inner =>
      have identifiers := fun action member => IsIdentifier.of_reads_back (names action member)
      refine everywhere_iff.2 ⟨⟨flat_of_single rfl, nonempty, identifiers⟩, ?_⟩
      intro part member
      rcases List.mem_append.1 member with channel | body
      · obtain ⟨action, among, rfl⟩ := List.mem_map.1 channel
        exact channels action among
      · rwa [List.mem_singleton.1 body]
  | par several flat _ all =>
      refine everywhere_iff.2 ⟨⟨?_, trivial⟩, all⟩
      rintro _ ⟨⟩
      exact ⟨several, flat⟩
  | restrict nonempty readBack _ inner =>
      have named := fun declaration member => well_named_of_read_back (readBack declaration member)
      refine everywhere_iff.2 ⟨⟨flat_of_single rfl, nonempty, named⟩, ?_⟩
      simpa [subprocesses] using inner
  | bundle _ inner =>
      refine everywhere_iff.2 ⟨⟨flat_of_single rfl, trivial⟩, ?_⟩
      simpa [subprocesses] using inner

theorem printable_iff {tree : ProcessTree} :
    tree.Printable ↔ Everywhere Flat tree ∧ Everywhere WellNamed tree := by
  constructor
  · intro printable
    have all := everywhere_of_printable printable
    exact ⟨fun part member => (all part member).1, fun part member => (all part member).2⟩
  · exact fun ⟨flat, named⟩ => printable_of_everywhere flat named

theorem exists_source_iff {tree : ProcessTree} :
    (∃ text, tree.toSource = .ok text) ↔ tree.Printable :=
  ⟨fun ⟨_, printed⟩ => (printable_of_to_source printed).1,
    fun printable => ⟨_, to_source_of_printable printable⟩⟩

theorem exists_reading_iff {tree : ProcessTree} (options : Options) :
    (∃ source, ProcessTree.parse options source = .ok tree) ↔ tree.Printable := by
  constructor
  · rintro ⟨source, read⟩
    obtain ⟨spanned, -, derived, readBack⟩ := exists_derivation_of_parse read
    exact Grammar.printable_of_derives derived readBack
  · intro printable
    obtain ⟨text, -, readsBack⟩ := reads_back_of_printable printable
    exact ⟨text, readsBack options⟩

end ProcessTree

/-- A tree has a source text exactly if it is flat and well named everywhere, and these are the
trees that some source is read as. The reason given for any other tree is that of the first node in
the order of the walk that cannot be written where it stands. -/
theorem source_text_fails_at_first_fault (process : ProcessTree) :
    ((∃ text, process.toSource = .ok text) ↔
      (∀ part ∈ process.listing, part.Flat) ∧ ∀ part ∈ process.listing, part.WellNamed) ∧
    (∀ options, (∃ text, process.toSource = .ok text) ↔
      ∃ source, ProcessTree.parse options source = .ok process) ∧
    (∃ places, (Node.ofProcess process).HasPlaces places ∧
      places.map (Node.ofProcess process).nodeAt? = (Node.ofProcess process).listing.map some) ∧
    ∀ fault, process.toSource = .error fault ↔
      ∃ place, (Node.ofProcess process).FaultyAt place fault ∧
        ∀ earlier < place, ∀ other, ¬ (Node.ofProcess process).FaultyAt earlier other := by
  refine ⟨?_, ?_, ?_, ?_⟩
  · rw [ProcessTree.exists_source_iff, ProcessTree.printable_iff]
    rfl
  · intro options
    rw [ProcessTree.exists_source_iff, ProcessTree.exists_reading_iff]
  · exact ⟨_, Node.has_places _, Node.map_node_at_places _⟩
  · intro fault
    rw [ProcessTree.to_source_error_iff, ProcessTree.unprintable_eq_all_faults,
      Node.head_of_all_faults_iff]

/-- A chain in a chain is too short as well, and a string after it has a quote. Neither is told. -/
theorem source_text_fails_at_first_fault_of_nested_chain :
    ProcessTree.toSource (.par [.par [.nil], .ground (.string "\"")]) = .error .nestedPar := by
  apply ((source_text_fails_at_first_fault _).2.2.2 _).2
  refine ⟨[0], ⟨_, rfl, .nested ⟨_, rfl, _, rfl⟩⟩, ?_⟩
  rintro earlier less other ⟨node, here, faulty⟩
  have root : earlier = [] := by
    rcases earlier with _ | ⟨position, deeper⟩
    · rfl
    · rcases List.cons_lt_cons_iff.1 less with before | ⟨-, before⟩
      · cases before
      · exact absurd before (List.not_lt_nil deeper)
  subst root
  cases here
  cases faulty with
  | nested inside =>
      obtain ⟨_, none, -⟩ := inside
      cases none
  | few _ few => exact absurd few (by decide)

end RhoFrontend
