import RhoFrontend.Proofs.LineComments

/-!
Two sources with a newline between them. The newline ends whatever the first one leaves open, so
nothing is read across it: the tokens are those of the first source and behind them those of the
second one, each moved by what stands before it. An error of the second source stays that error.
-/

namespace RhoFrontend

namespace SpannedToken

/-- Behind other text a source is read as it is alone, with every place moved. -/
theorem of_text_at_eq_moved (options : Options) (distance : Nat) (source : List Char) :
    ofTextAt options distance source =
      ((ofSource options source).map (List.map (moved distance))).mapError
        (LexicalError.moved distance) := by
  have read := of_pieces_moved options distance 0 (Piece.ofText source)
  rwa [Nat.zero_add] at read

/-- The second source alone decides what comes behind the tokens of the first one. -/
theorem of_source_joined {first : String} {spanned : List SpannedToken}
    (lexed : ofSource {} first.toList = .ok spanned) (options : Options) (second : String) :
    ofSource options (first ++ "\n" ++ second).toList =
      (ofTextAt options (first.utf8ByteSize + 1) second.toList).map (spanned ++ ·) := by
  have layout : Layout 0 first.toList spanned := layout_of_text_at lexed
  have read := layout.read_before_newline options second.toList
  rw [Nat.zero_add, byte_length_eq_utf8_byte_size] at read
  have joined : (first ++ "\n" ++ second).toList = first.toList ++ '\n' :: second.toList := by
    simp
  rw [joined]
  exact read

end SpannedToken

/-- A source that is read by default leaves no trace behind a newline but the bytes it takes. What
follows is read as it is alone, under either option, and if it has a lexical error, that error is
the one of the whole. -/
theorem newline_separates_sources (first second : String) (spanned : List SpannedToken)
    (lexed : SpannedToken.ofSource {} first.toList = .ok spanned) (options : Options) :
    (∀ later, SpannedToken.ofSource options second.toList = .ok later →
        SpannedToken.ofSource options (first ++ "\n" ++ second).toList =
          .ok (spanned ++ later.map (SpannedToken.moved (first.utf8ByteSize + 1)))) ∧
      ∀ error, SpannedToken.ofSource options second.toList = .error error →
        SpannedToken.ofSource options (first ++ "\n" ++ second).toList =
          .error (error.moved (first.utf8ByteSize + 1)) := by
  rw [SpannedToken.of_source_joined lexed, SpannedToken.of_text_at_eq_moved]
  constructor
  · intro later readLater
    rw [readLater]
    rfl
  · intro error failed
    rw [failed]
    rfl

/-- The comment of the first source stops before the second one, which may end in a comment of its
own, and the blanks on both sides of the newline are read as one. -/
theorem newline_separates_sources_behind_comment :
    SpannedToken.ofSource {} "1 //é".toList = .ok [⟨.integer 1, ⟨0, 1⟩⟩] ∧
      SpannedToken.ofSource .strict "\n-2".toList = .ok [⟨.integer (-2), ⟨1, 3⟩⟩] ∧
      SpannedToken.ofSource .strict "1 //é\n\n-2".toList =
        .ok [⟨.integer 1, ⟨0, 1⟩⟩, ⟨.integer (-2), ⟨8, 10⟩⟩] ∧
      SpannedToken.ofSource .strict "2 //".toList = .error ⟨.missingNewline, ⟨2, 4⟩, "//"⟩ ∧
      SpannedToken.ofSource .strict "1 //é\n2 //".toList =
        .error ⟨.missingNewline, ⟨9, 11⟩, "//"⟩ := by
  have lexed : SpannedToken.ofSource {} "1 //é".toList = .ok [⟨.integer 1, ⟨0, 1⟩⟩] := by cbv
  have later : SpannedToken.ofSource .strict "\n-2".toList =
      .ok [⟨.integer (-2), ⟨1, 3⟩⟩] := by cbv
  have failed : SpannedToken.ofSource .strict "2 //".toList =
      .error ⟨.missingNewline, ⟨2, 4⟩, "//"⟩ := by cbv
  have joined := (newline_separates_sources "1 //é" "\n-2" _ lexed .strict).1 _ later
  have refused := (newline_separates_sources "1 //é" "2 //" _ lexed .strict).2 _ failed
  exact ⟨lexed, later, joined, failed, refused⟩

end RhoFrontend
