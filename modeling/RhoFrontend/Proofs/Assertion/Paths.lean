import RhoFrontend.Assertion.Failure

/-!
The text of a path says which path it is, as long as no letter and no digit stands behind it: every
step begins with a dot, its word is all letters and an index is all digits.
-/

namespace RhoFrontend.Assertion

/-- Two texts that begin with characters of one kind, up to the first other one. -/
theorem cut_unique {kind : Char → Bool} {inside outside other rest : List Char}
    (all : ∀ char ∈ inside, kind char = true) (stops : ∀ char ∈ outside.head?, kind char = false)
    (others : ∀ char ∈ other, kind char = true) (ends : ∀ char ∈ rest.head?, kind char = false)
    (same : inside ++ outside = other ++ rest) : inside = other ∧ outside = rest := by
  have nothing : ∀ text : List Char, (∀ char ∈ text.head?, kind char = false) →
      text.takeWhile kind = [] := by
    intro text stops
    cases text with
    | nil => rfl
    | cons char text => rw [List.takeWhile_cons_of_neg (by simpa using stops)]
  have heads := congrArg (List.takeWhile kind) same
  rw [List.takeWhile_append_of_pos all, List.takeWhile_append_of_pos others, nothing _ stops,
    nothing _ ends, List.append_nil, List.append_nil] at heads
  subst heads
  exact ⟨rfl, List.append_cancel_left same⟩

namespace Step

/-- The step without the index it may have. -/
def word : Step → String
  | .channel => "chan"
  | .message => "message"
  | .body => "body"
  | .bundled => "proc"
  | .action _ => "actions"
  | .operand _ => "procs"
  | .declaration _ => "vars"

def indexText : Step → List Char
  | .action index | .operand index | .declaration index => '[' :: (Nat.toDigits 10 index ++ [']'])
  | _ => []

theorem describe_to_list (step : Step) :
    step.describe.toList = '.' :: (step.word.toList ++ step.indexText) := by
  cases step <;> simp [describe, word, indexText, toString]

theorem letters_of_word (step : Step) : ∀ char ∈ step.word.toList, char.isAlpha = true :=
  List.all_eq_true.1 (by cases step <;> simp only [word] <;> decide)

theorem no_letter_behind_word (step : Step) {later : List Char}
    (stops : ∀ char ∈ later.head?, char.isAlpha = false) :
    ∀ char ∈ (step.indexText ++ later).head?, char.isAlpha = false := by
  cases step with
  | action | operand | declaration => simp [indexText]
  | _ => exact stops

theorem index_unique {index other : Nat} {later rest : List Char}
    (same : Nat.toDigits 10 index ++ ']' :: later = Nat.toDigits 10 other ++ ']' :: rest) :
    index = other ∧ later = rest := by
  have all : ∀ number : Nat, ∀ char ∈ Nat.toDigits 10 number, char.isDigit = true :=
    fun _ _ member => Nat.isDigit_of_mem_toDigits (by decide) (by decide) member
  have ends : ∀ text : List Char, ∀ char ∈ (']' :: text).head?, char.isDigit = false := by simp
  obtain ⟨digits, behind⟩ := cut_unique (all index) (ends later) (all other) (ends rest) same
  have number : index = other := by
    calc
      index = Nat.ofDigitChars 10 (Nat.toDigits 10 index) 0 := Nat.ofDigitChars_ten_toDigits.symm
      _ = Nat.ofDigitChars 10 (Nat.toDigits 10 other) 0 := by rw [digits]
      _ = other := Nat.ofDigitChars_ten_toDigits
  exact ⟨number, (List.cons.inj behind).2⟩

/-- Steps of one word are the same but for the index. -/
theorem eq_of_word {step other : Step} {later rest : List Char} (word : step.word = other.word)
    (same : step.indexText ++ later = other.indexText ++ rest) : step = other ∧ later = rest := by
  cases step <;> cases other <;> simp [Step.word] at word
  case action.action | operand.operand | declaration.declaration =>
    simp only [indexText, List.cons_append, List.append_assoc, List.cons.injEq, true_and] at same
    obtain ⟨rfl, behind⟩ := index_unique same
    exact ⟨rfl, behind⟩
  all_goals exact ⟨rfl, same⟩

end Step

/-- The steps of a path one behind the other. -/
def stepsText (path : Path) : List Char :=
  path.flatMap fun step => '.' :: (step.word.toList ++ step.indexText)

theorem describe_path_to_list (path : Path) :
    (describePath path).toList = "proc".toList ++ stepsText path := by
  have from_text : ∀ (path : Path) (text : String),
      (path.foldl (fun text step => text ++ step.describe) text).toList =
        text.toList ++ stepsText path := by
    intro path
    induction path with
    | nil => simp [stepsText]
    | cons step path induction =>
        intro text
        rw [List.foldl_cons, induction, String.toList_append, Step.describe_to_list,
          List.append_assoc]
        rfl
  exact from_text path "proc"

/-- Behind a step comes the dot of the next one, or the colon behind the path. -/
theorem no_letter_behind_step (path : Path) (rest : List Char) :
    ∀ char ∈ (stepsText path ++ ':' :: rest).head?, char.isAlpha = false := by
  cases path with
  | nil => simp [stepsText]
  | cons step path => simp [stepsText]

theorem steps_unique {path other : Path} {later rest : List Char}
    (same : stepsText path ++ ':' :: later = stepsText other ++ ':' :: rest) : path = other := by
  induction path generalizing other with
  | nil =>
      cases other with
      | nil => rfl
      | cons step other => simp [stepsText] at same
  | cons step path induction =>
      cases other with
      | nil => simp [stepsText] at same
      | cons next other =>
          have words : step.word.toList ++ (step.indexText ++ (stepsText path ++ ':' :: later)) =
              next.word.toList ++ (next.indexText ++ (stepsText other ++ ':' :: rest)) := by
            simpa [stepsText] using same
          obtain ⟨word, behind⟩ := cut_unique step.letters_of_word
            (step.no_letter_behind_word (no_letter_behind_step path later))
            next.letters_of_word
            (next.no_letter_behind_word (no_letter_behind_step other rest)) words
          obtain ⟨rfl, deeper⟩ := Step.eq_of_word (String.toList_inj.1 word) behind
          rw [induction deeper]

/-- A text that begins with a path and a colon begins with no other one. -/
theorem path_unique {path other : Path} {later rest : String}
    (same : describePath path ++ ": " ++ later = describePath other ++ ": " ++ rest) :
    path = other := by
  have chars := congrArg String.toList same
  rw [String.toList_append, String.toList_append, String.toList_append, String.toList_append,
    describe_path_to_list, describe_path_to_list, List.append_assoc, List.append_assoc,
    List.append_assoc, List.append_assoc] at chars
  exact steps_unique (List.append_cancel_left chars)

end RhoFrontend.Assertion
