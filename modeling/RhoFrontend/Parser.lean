import RhoFrontend.ProcessTree.Reading
import RhoFrontend.Token.Stream

/-!
From source text to process trees. A source is first cut into tokens and then read as one process,
so a lexical error anywhere comes before any syntax error. A syntax error stands at the first token
that no process can have there.
-/

namespace RhoFrontend

namespace SyntaxError

def ofState (state : Reading.State) (span : Span) (found : Option Token) : SyntaxError :=
  ⟨span, state.expected.map Reading.Expectation.describe, found.map Token.describe⟩

end SyntaxError

namespace ProcessTree

/-- Reads on from a state. The end of the input counts as a span of one byte past the source. -/
def readFrom (sourceLength : Nat) (state : Reading.State) :
    List SpannedToken → Except SyntaxError ProcessTree
  | [] =>
      match state.finish? with
      | some process => .ok process
      | none => .error (.ofState state ⟨sourceLength, sourceLength + 1⟩ none)
  | ⟨token, span⟩ :: rest =>
      match state.step token with
      | some next => readFrom sourceLength next rest
      | none => .error (.ofState state span (some token))

/-- All processes that a source can be read as. There is one, or there is an error. -/
def derivations (options : Options) (source : String) : Except ParseError (List ProcessTree) :=
  match SpannedToken.ofSource options source.toList with
  | .error error => .error (.lexical error)
  | .ok tokens =>
      match readFrom (byteLength source.toList) .start tokens with
      | .error error => .error (.syntactic error)
      | .ok process => .ok [process]

/-- The only one of several readings. -/
def unique : List ProcessTree → Except ParseError ProcessTree
  | [process] => .ok process
  | processes => .error (.ambiguous processes.length)

def parse (options : Options) (source : String) : Except ParseError ProcessTree :=
  (derivations options source).bind unique

end ProcessTree

end RhoFrontend
