/-!
Ways to compare a text with an expected one.
-/

namespace RhoFrontend

inductive TextExpectation
  | equals (text : String)
  | startsWith (text : String)
  | contains (text : String)
deriving DecidableEq, Repr

namespace TextExpectation

def occursIn (part : List Char) : List Char → Bool
  | [] => part.isEmpty
  | char :: rest => part.isPrefixOf (char :: rest) || occursIn part rest

def accepts (expected : TextExpectation) (actual : String) : Bool :=
  match expected with
  | .equals text => actual == text
  | .startsWith text => text.toList.isPrefixOf actual.toList
  | .contains text => occursIn text.toList actual.toList

def describe : TextExpectation → String
  | .equals text => s!"to be '{text}'"
  | .startsWith text => s!"to start with '{text}'"
  | .contains text => s!"to contain '{text}'"

def complaint (expected : TextExpectation) (actual : String) : String :=
  s!"Expected text {expected.describe}, but got '{actual}'"

/-- The complaint with the place it concerns in front, if there is one to make. -/
def failure? (expected : TextExpectation) (actual context : String) : Option String :=
  if expected.accepts actual then none else some s!"{context}: {expected.complaint actual}"

end TextExpectation

end RhoFrontend
