import RhoFrontend.ProcessTree.Composition
import RhoFrontend.Proofs.Lexing.Chunks
import RhoFrontend.Proofs.Reprinting

/-!
Programs put together as text. A newline behind each part ends a comment that the part may have left
open, and nothing else is needed: the whole is read as the tree that the constructors build from the
trees of the parts. A chain of processes stays one operand wherever it is enclosed, and dissolves
into a chain around it.
-/

namespace RhoFrontend

open Grammar
open Token (mark word)

/-- A source with the tree that it is read as. -/
structure Program where
  source : String
  tree : ProcessTree
  parsed : ProcessTree.parse {} source = .ok tree

/-- A name in the source language: the rule of identifiers matches it and no keyword is spelled
like it. -/
structure IsIdentifier (name : String) : Prop where
  matched : Rule.Reads .identifier name.toList (.token (.identifier name))
  free : ∀ keyword : Keyword, keyword.spelling ≠ name

namespace Program

/-! The texts. Each part has a newline behind it, but for the last operand of a chain. -/

def sendText (channel message : String) : String :=
  "@" ++ channel ++ "\n!(" ++ message ++ "\n)"

def parallelText (operands : List String) : String := "\n|".intercalate operands

def actionText (name channel : String) : String := name ++ "<-@" ++ channel ++ "\n"

def receiveText (actions : List String) (body : String) : String :=
  "for(" ++ ";".intercalate actions ++ ")\x7b" ++ body ++ "\n\x7d"

def declarationText (declaration : Declaration) : String :=
  match declaration.uri with
  | none => declaration.name
  | some uri => declaration.name ++ "(`" ++ uri ++ "`)"

def restrictText (declarations : List Declaration) (body : String) : String :=
  "new " ++ ",".intercalate (declarations.map declarationText) ++ " in\x7b" ++ body ++ "\n\x7d"

def bundleText (body : String) : String := "bundle\x7b" ++ body ++ "\n\x7d"

variable (program : Program)

def tokens : List Token :=
  match SpannedToken.ofSource {} program.source.toList with
  | .ok spanned => spanned.map SpannedToken.token
  | .error _ => []

theorem exists_spanned : ∃ spanned,
    SpannedToken.ofSource {} program.source.toList = .ok spanned ∧
      program.tokens = spanned.map SpannedToken.token ∧
        Derives (.process program.tree) program.tokens := by
  obtain ⟨spanned, lexed, derived, -⟩ := exists_derivation_of_parse program.parsed
  have same : program.tokens = spanned.map SpannedToken.token := by rw [tokens, lexed]
  refine ⟨spanned, lexed, same, ?_⟩
  rwa [same]

theorem derives : Derives (.process program.tree) program.tokens := by
  obtain ⟨spanned, lexed, same, derived⟩ := program.exists_spanned
  exact derived

theorem chunk (options : Options) :
    Chunk options (program.source.toList ++ ['\n']) program.tokens := by
  obtain ⟨spanned, lexed, same, derived⟩ := program.exists_spanned
  rw [same]
  exact .of_source lexed

theorem ending : Ending {} program.source.toList program.tokens := by
  obtain ⟨spanned, lexed, same, derived⟩ := program.exists_spanned
  rw [same]
  exact .of_source lexed

end Program

theorem parse_of_ending {options : Options} {source : String} {tokens : List Token}
    {tree : ProcessTree} (read : Ending options source.toList tokens)
    (derived : Derives (.process tree) tokens) :
    ProcessTree.parse options source = .ok tree := by
  obtain ⟨spanned, same, lexed⟩ := read 0
  rw [← same] at derived
  rw [parse_ok_iff_derivations, derivations_ok_iff lexed]
  exact ⟨tree, rfl, derived⟩

theorem IsIdentifier.reads_back {name : String} (identifier : IsIdentifier name) :
    (Token.identifier name).ReadsBack := by
  obtain ⟨matched, free⟩ := identifier
  rw [Token.ReadsBack, Token.spelling]
  generalize letters : name.toList = text at matched
  cases matched with
  | @identifier first rest starts parts =>
      have spelled := Token.Spelled.word ((Rule.name_start_iff first).1 starts)
        (fun char member => (Rule.name_part_iff char).1 (parts char member))
      have noKeyword : Keyword.ofSpelling? (String.ofList (first :: rest)) = none := by
        apply Option.eq_none_iff_forall_ne_some.2
        intro keyword known
        apply free keyword
        rw [Lexeme.of_spelling_eq_some_iff.1 known]
      rwa [Lexeme.ofWord, noKeyword] at spelled

namespace ProcessTree

/-! Chains of chains. -/

theorem operands_of_term {tree : ProcessTree} {tokens : List Token}
    (derived : Derives (.term tree) tokens) : tree.operandsOf = [tree] := by
  cases derived <;> rfl

theorem derives_operands {tree : ProcessTree} {tokens : List Token}
    (derived : Derives (.process tree) tokens) : Derives (.terms tree.operandsOf) tokens := by
  cases derived with
  | single only =>
      rw [operands_of_term only]
      exact .lastTerm only
  | parallel several all => exact all

theorem operands_of_ne_nil {tree : ProcessTree} {tokens : List Token}
    (derived : Derives (.process tree) tokens) : tree.operandsOf ≠ [] := by
  intro none
  have derivedNone := derives_operands derived
  rw [none] at derivedNone
  cases derivedNone

theorem derives_terms_append {left right : List ProcessTree} {tokens rest : List Token}
    (first : Derives (.terms left) tokens) (second : Derives (.terms right) rest) :
    Derives (.terms (left ++ right)) (tokens ++ mark .pipe :: rest) := by
  induction left generalizing tokens with
  | nil => cases first
  | cons tree trees induction =>
      cases first with
      | lastTerm last => exact .moreTerms last second
      | moreTerms head others =>
          rw [List.append_assoc, List.cons_append]
          exact .moreTerms head (induction others)

theorem spliced_cons (first : ProcessTree) (rest : List ProcessTree) :
    spliced (first :: rest) = first.operandsOf ++ spliced rest :=
  List.flatMap_cons

theorem length_le_spliced {trees : List ProcessTree}
    (nonempty : ∀ tree ∈ trees, tree.operandsOf ≠ []) : trees.length ≤ (spliced trees).length := by
  induction trees with
  | nil => exact Nat.le_refl 0
  | cons first rest induction =>
      obtain ⟨head, others⟩ := List.forall_mem_cons.1 nonempty
      have positive := List.length_pos_of_ne_nil head
      have later := induction others
      rw [spliced_cons, List.length_append, List.length_cons]
      omega

theorem parallel_of_several {trees : List ProcessTree} (several : 2 ≤ (spliced trees).length) :
    parallelOf trees = .par (spliced trees) := by
  unfold parallelOf
  split
  · next empty => simp [empty] at several
  · next single => simp [single] at several
  · rfl

/-- Operands that are put together two at a time from the left make one flat composition. -/
theorem foldl_parallel (first : ProcessTree) {rest : List ProcessTree} (nonempty : rest ≠ []) :
    rest.foldl parallel first = .par (spliced (first :: rest)) := by
  induction rest generalizing first with
  | nil => exact absurd rfl nonempty
  | cons second rest induction =>
      rw [List.foldl_cons]
      cases rest with
      | nil => rfl
      | cons third rest =>
          rw [induction _ (List.cons_ne_nil third rest)]
          simp [spliced, parallel, operandsOf]

/-- From the right they make the same. -/
theorem foldr_parallel {init : List ProcessTree} (last : ProcessTree) (nonempty : init ≠ []) :
    init.foldr parallel last = .par (spliced (init ++ [last])) := by
  induction init with
  | nil => exact absurd rfl nonempty
  | cons first rest induction =>
      rw [List.foldr_cons]
      cases rest with
      | nil => rfl
      | cons second rest =>
          rw [induction (List.cons_ne_nil second rest)]
          simp [spliced, parallel, operandsOf]

end ProcessTree

namespace Program

section Forms

variable (options : Options) (body : Program)

theorem block_chunk : Chunk options ('\x7b' :: (body.source.toList ++ ['\n', '\x7d']))
    (mark .openBrace :: (body.tokens ++ [mark .closeBrace])) := by
  have opened := (Chunk.of_mark .openBrace).append (body.chunk options)
  simpa [Punctuation.spelling] using opened.append (.of_mark .closeBrace)

theorem action_chunk {name : String} (identifier : IsIdentifier name) (channel : Program) :
    Chunk options (actionText name channel.source).toList
      (.identifier name :: mark .leftArrow :: mark .atSign :: channel.tokens) := by
  have reads := ((Chunk.of_mark .leftArrow).append (.of_mark .atSign)).append
    (channel.chunk options)
  have whole := Chunk.name_before identifier.reads_back reads ⟨_, rfl, rfl⟩
  simpa [actionText, Punctuation.spelling] using whole

theorem declaration_before {declaration : Declaration} (identifier : IsIdentifier declaration.name)
    (unquoted : ∀ uri ∈ declaration.uri, '\x60' ∉ uri.toList) {later : List Char}
    {tokens : List Token} (chunk : Chunk options later tokens)
    (ends : ∃ next ∈ later.head?, isNamePart next = false) :
    Chunk options ((declarationText declaration).toList ++ later)
      (Token.ofDeclaration declaration ++ tokens) := by
  obtain ⟨name, uri⟩ := declaration
  cases uri with
  | none => exact Chunk.name_before identifier.reads_back chunk ends
  | some uri =>
      have located := (((Chunk.of_mark .openParen).append (.of_uri (unquoted uri rfl))).append
        (.of_mark .closeParen)).append chunk
      have whole := Chunk.name_before identifier.reads_back located ⟨_, rfl, rfl⟩
      simpa [declarationText, Token.ofDeclaration, Punctuation.spelling] using whole

end Forms

theorem parse_send (options : Options) (channel message : Program) :
    ProcessTree.parse options (sendText channel.source message.source) =
      .ok (.send channel.tree message.tree) := by
  have read : Chunk options (sendText channel.source message.source).toList
      (mark .atSign :: (channel.tokens ++ mark .bang :: mark .openParen ::
        (message.tokens ++ [mark .closeParen]))) := by
    have opened := (Chunk.of_mark .atSign).append (channel.chunk options)
    have bang := (opened.append (.of_mark .bang)).append (.of_mark .openParen)
    have whole := (bang.append (message.chunk options)).append (.of_mark .closeParen)
    simpa [sendText, Punctuation.spelling] using whole
  exact parse_of_ending read.ending (.single (.send (.name channel.derives) message.derives))

theorem derives_parallel {operands : List Program} (nonempty : operands ≠ []) :
    Derives (.terms (ProcessTree.spliced (operands.map tree)))
      (Token.joined (mark .pipe) (operands.map tokens)) := by
  have derived : ∀ each ∈ operands, Derives (.terms each.tree.operandsOf) each.tokens :=
    fun each _ => ProcessTree.derives_operands each.derives
  apply Token.derives_joined _ _ nonempty derived
  · intro only text last
    rw [List.map_singleton, ProcessTree.spliced_cons, ProcessTree.spliced, List.flatMap_nil,
      List.append_nil]
    exact last
  · intro first others text rest head tail
    rw [List.map_cons, ProcessTree.spliced_cons]
    exact ProcessTree.derives_terms_append head tail

theorem two_le_spliced {operands : List Program} (several : 2 ≤ operands.length) :
    2 ≤ (ProcessTree.spliced (operands.map tree)).length := by
  have nonempty : ∀ each ∈ operands.map tree, each.operandsOf ≠ [] := by
    intro tree member
    obtain ⟨each, -, rfl⟩ := List.mem_map.1 member
    exact ProcessTree.operands_of_ne_nil each.derives
  have enough := ProcessTree.length_le_spliced nonempty
  rw [List.length_map] at enough
  omega

theorem parse_parallel {operands : List Program} (several : 2 ≤ operands.length) :
    ProcessTree.parse {} (parallelText (operands.map source)) =
      .ok (.parallelOf (operands.map tree)) := by
  have nonempty := List.ne_nil_of_length_pos (Nat.lt_of_lt_of_le Nat.zero_lt_two several)
  have read : Ending {} (parallelText (operands.map source)).toList
      (Token.joined (mark .pipe) (operands.map tokens)) := by
    have more : ∀ each ∈ operands, Chunk {} (each.source.toList ++ ['\n', '|'])
        (each.tokens ++ [mark .pipe]) := by
      intro each _
      simpa [Punctuation.spelling] using (each.chunk {}).append (.of_mark .pipe)
    have last : ∀ each ∈ operands, Ending {} (each.source.toList ++ []) (each.tokens ++ []) := by
      intro each _
      simpa using each.ending
    have whole := Chunk.joined Chunk.before nonempty more last
    simpa [parallelText, String.toList_intercalate, Function.comp_def] using whole
  rw [ProcessTree.parallel_of_several (two_le_spliced several)]
  exact parse_of_ending read (.parallel (two_le_spliced several) (derives_parallel nonempty))

theorem parse_receive (options : Options) {bindings : List (String × Program)} (body : Program)
    (nonempty : bindings ≠ []) (identifiers : ∀ each ∈ bindings, IsIdentifier each.1) :
    ProcessTree.parse options (receiveText
        (bindings.map fun each => actionText each.1 each.2.source) body.source) =
      .ok (.receiveOn (bindings.map fun each => (each.1, each.2.tree)) body.tree) := by
  let meaning : String × Program → List Token := fun each =>
    .identifier each.1 :: mark .leftArrow :: mark .atSign :: each.2.tokens
  have read : Chunk options (receiveText
      (bindings.map fun each => actionText each.1 each.2.source) body.source).toList
      (word .receive :: mark .openParen :: (Token.joined (mark .semicolon)
        (bindings.map meaning) ++ mark .closeParen :: mark .openBrace ::
          (body.tokens ++ [mark .closeBrace]))) := by
    have more : ∀ each ∈ bindings, Chunk options
        ((actionText each.1 each.2.source).toList ++ [';']) (meaning each ++ [mark .semicolon]) :=
      fun each member => (action_chunk options (identifiers each member) each.2).append
        (.of_mark .semicolon)
    have last : ∀ each ∈ bindings, Chunk options
        ((actionText each.1 each.2.source).toList ++ [')']) (meaning each ++ [mark .closeParen]) :=
      fun each member => (action_chunk options (identifiers each member) each.2).append
        (.of_mark .closeParen)
    have actions := Chunk.joined Chunk.append nonempty more last
    have inner := ((Chunk.of_mark .openParen).append actions).append (block_chunk options body)
    have whole := Chunk.word_before .receive inner ⟨_, rfl, rfl⟩
    simpa [receiveText, String.toList_intercalate, Function.comp_def, Punctuation.spelling,
      Keyword.spelling] using whole
  have derived : Derives (.actions (bindings.map fun each => ⟨⟨each.1⟩, each.2.tree⟩))
      (Token.joined (mark .semicolon) (bindings.map meaning)) := by
    have all : ∀ each ∈ bindings, Derives (.action ⟨⟨each.1⟩, each.2.tree⟩) (meaning each) :=
      fun each _ => .action (.name each.2.derives)
    apply Token.derives_joined _ _ nonempty all
    · exact fun last => .lastAction last
    · exact fun first others => .moreActions first others
  have receive := Derives.single (.receive derived (.block body.derives))
  rw [ProcessTree.receiveOn, List.map_map]
  exact parse_of_ending read.ending receive

theorem parse_restrict (options : Options) {declarations : List Declaration} (body : Program)
    (nonempty : declarations ≠ [])
    (identifiers : ∀ each ∈ declarations, IsIdentifier each.name)
    (unquoted : ∀ each ∈ declarations, ∀ uri ∈ each.uri, '\x60' ∉ uri.toList) :
    ProcessTree.parse options (restrictText declarations body.source) =
      .ok (.restrict declarations body.tree) := by
  have space : TriviaText [' '] := .of_blanks (by simp)
  have read : Chunk options (restrictText declarations body.source).toList
      (word .new :: (Token.joined (mark .comma) (declarations.map Token.ofDeclaration) ++
        word .within :: mark .openBrace :: (body.tokens ++ [mark .closeBrace]))) := by
    have more : ∀ each ∈ declarations, Chunk options ((declarationText each).toList ++ [','])
        (Token.ofDeclaration each ++ [mark .comma]) :=
      fun each member => declaration_before options (identifiers each member)
        (unquoted each member) (.of_mark .comma) ⟨_, rfl, rfl⟩
    have last : ∀ each ∈ declarations, Chunk options ((declarationText each).toList ++ [' '])
        (Token.ofDeclaration each ++ []) :=
      fun each member => declaration_before options (identifiers each member)
        (unquoted each member) (.of_trivia space) ⟨_, rfl, rfl⟩
    have names := Chunk.joined Chunk.append nonempty more last
    have within := Chunk.word_before .within (block_chunk options body) ⟨_, rfl, rfl⟩
    have inner := ((Chunk.of_trivia space).append names).append within
    have whole := Chunk.word_before .new inner ⟨_, rfl, rfl⟩
    simpa [restrictText, String.toList_intercalate, Function.comp_def, Keyword.spelling] using whole
  have derived : Derives (.declarations .new declarations)
      (Token.joined (mark .comma) (declarations.map Token.ofDeclaration)) := by
    have all : ∀ each ∈ declarations, Derives (.declaration .new each)
        (Token.ofDeclaration each) := fun each _ => ProcessTree.derives_declaration each
    exact Token.derives_joined .lastDeclaration .moreDeclarations nonempty all
  exact parse_of_ending read.ending (.single (.restrict derived (.block body.derives)))

theorem parse_bundle (options : Options) (body : Program) :
    ProcessTree.parse options (bundleText body.source) = .ok (.bundle body.tree) := by
  have read : Chunk options (bundleText body.source).toList
      (word .bundle :: mark .openBrace :: (body.tokens ++ [mark .closeBrace])) := by
    have whole := Chunk.word_before .bundle (block_chunk options body) ⟨_, rfl, rfl⟩
    simpa [bundleText, Keyword.spelling] using whole
  exact parse_of_ending read.ending (.single (.bundle (.block body.derives)))

end Program

open Program in
/-- Sources put together around parts that are programs are read as the trees put together from the
trees of the parts. Operands of a chain come out in one flat composition, in whichever order they
are put together two at a time. -/
theorem parsing_composes :
    (∀ (options : Options) (channel message : Program),
        ProcessTree.parse options (sendText channel.source message.source) =
          .ok (.send channel.tree message.tree)) ∧
      (∀ operands : List Program, 2 ≤ operands.length →
        ProcessTree.parse {} (parallelText (operands.map source)) =
          .ok (.parallelOf (operands.map tree))) ∧
      (∀ (first : Program) (rest : List Program), rest ≠ [] →
        ProcessTree.parallelOf (first.tree :: rest.map tree) =
          (rest.map tree).foldl ProcessTree.parallel first.tree) ∧
      (∀ (init : List Program) (last : Program), init ≠ [] →
        ProcessTree.parallelOf (init.map tree ++ [last.tree]) =
          (init.map tree).foldr ProcessTree.parallel last.tree) ∧
      (∀ (options : Options) (bindings : List (String × Program)) (body : Program),
        bindings ≠ [] → (∀ each ∈ bindings, IsIdentifier each.1) →
          ProcessTree.parse options (receiveText
              (bindings.map fun each => actionText each.1 each.2.source) body.source) =
            .ok (.receiveOn (bindings.map fun each => (each.1, each.2.tree)) body.tree)) ∧
      (∀ (options : Options) (declarations : List Declaration) (body : Program),
        declarations ≠ [] → (∀ each ∈ declarations, IsIdentifier each.name) →
          (∀ each ∈ declarations, ∀ uri ∈ each.uri, '\x60' ∉ uri.toList) →
            ProcessTree.parse options (restrictText declarations body.source) =
              .ok (.restrict declarations body.tree)) ∧
      ∀ (options : Options) (body : Program),
        ProcessTree.parse options (bundleText body.source) = .ok (.bundle body.tree) := by
  refine ⟨parse_send, ?_, ?_, ?_, ?_, ?_, parse_bundle⟩
  · intro operands several
    exact parse_parallel several
  · intro first rest nonempty
    have several : 2 ≤ (first :: rest).length := by
      have positive := List.length_pos_of_ne_nil nonempty
      rw [List.length_cons]
      omega
    rw [ProcessTree.foldl_parallel _ (by simpa using nonempty)]
    exact ProcessTree.parallel_of_several (two_le_spliced several)
  · intro init last nonempty
    have several : 2 ≤ (init ++ [last]).length := by
      have positive := List.length_pos_of_ne_nil nonempty
      rw [List.length_append, List.length_singleton]
      omega
    have flat := two_le_spliced several
    rw [List.map_append, List.map_singleton] at flat
    rw [ProcessTree.foldr_parallel _ (by simpa using nonempty)]
    exact ProcessTree.parallel_of_several flat
  · intro options bindings body nonempty identifiers
    exact parse_receive options body nonempty identifiers
  · intro options declarations body nonempty identifiers unquoted
    exact parse_restrict options body nonempty identifiers unquoted

/-- A chain with an open comment is the whole channel of a send, and joins the chain around it. -/
theorem parsing_composes_around_chain :
    ProcessTree.parse {} "1|Nil//" = .ok (.par [.ground (.int 1), .nil]) ∧
      ProcessTree.parse {} "2//" = .ok (.ground (.int 2)) ∧
      IsIdentifier "x" ∧
      ProcessTree.parse {} "@1|Nil//\n!(2//\n)" =
        .ok (.send (.par [.ground (.int 1), .nil]) (.ground (.int 2))) ∧
      ProcessTree.parse {} "2//\n|1|Nil//" =
        .ok (.par [.ground (.int 2), .ground (.int 1), .nil]) ∧
      ProcessTree.parse {} "for(x<-@1|Nil//\n)\x7b2//\n\x7d" =
        .ok (.receive [⟨⟨"x"⟩, .par [.ground (.int 1), .nil]⟩] (.ground (.int 2))) ∧
      ProcessTree.parse {} "new x(`u`) in\x7b2//\n\x7d" =
        .ok (.restrict [⟨"x", some "u"⟩] (.ground (.int 2))) := by
  have chainParsed : ProcessTree.parse {} "1|Nil//" = .ok (.par [.ground (.int 1), .nil]) := by cbv
  have numberParsed : ProcessTree.parse {} "2//" = .ok (.ground (.int 2)) := by cbv
  let chain : Program := ⟨_, _, chainParsed⟩
  let number : Program := ⟨_, _, numberParsed⟩
  have name : IsIdentifier "x" := by
    have letter : 'x'.isAlpha = true ∨ 'x' = '_' := .inl rfl
    have matched := Rule.Reads.identifier letter (List.forall_mem_nil _)
    have free : ∀ keyword : Keyword, keyword.spelling ≠ "x" := by
      intro keyword
      cases keyword <;> decide
    exact ⟨matched, free⟩
  obtain ⟨send, parallel, -, -, receive, restrict, -⟩ := parsing_composes
  refine ⟨chainParsed, numberParsed, name, ?_, ?_, ?_, ?_⟩
  · exact send {} chain number
  · exact parallel [number, chain] (by simp)
  · exact receive {} [("x", chain)] number (by simp) (by simpa using name)
  · exact restrict {} [⟨"x", some "u"⟩] number (by simp) (by simpa using name) (by simp)

end RhoFrontend
