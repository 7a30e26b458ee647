import RhoFrontend.ProcessTree.Basic
import RhoFrontend.Token

/-!
A process read token by token. Every term starts with a token of its own and every compound term
is closed, so one token always decides how to go on:

    process  = term { "|" term }
    term     = "Nil" | literal | send | receive | restrict | bundle
    name     = "@" process
    send     = name "!" "(" process ")"
    receive  = "for" "(" action { ";" action } ")" block
    action   = identifier "<-" name
    restrict = "new" declared { "," declared } "in" block
             | "lookup" bound { "," bound } "in" block
    declared = identifier [ "(" uri ")" ]
    bound    = identifier "(" uri ")"
    bundle   = "bundle" block
    block    = "{" process "}"

A channel is a whole process: its chain of terms runs up to the bang, semicolon or parenthesis that
follows it. What is read so far is kept as the stack of constructs that are still open. All lists
in it hold the latest item first.
-/

namespace RhoFrontend.Reading

/-- The two words that open a restriction. After `lookup` every name needs a uri. -/
inductive Binder
  | new
  | lookup
deriving DecidableEq, Repr

/-- A construct that lacks only its block. -/
inductive BlockOwner
  | receive (actions : List Action)
  | restrict (declarations : List Declaration)
  | bundle
deriving DecidableEq

/-- A construct that is open around the process being read. -/
inductive Construct
  | sendChannel
  | sendMessage (channel : ProcessTree)
  | actionChannel (earlier : List Action) (name : String)
  | block (owner : BlockOwner)
deriving DecidableEq

/-- Where in the innermost construct the reading stands: before a term, after one, or between the
tokens of a part that has a fixed form. -/
inductive Place
  | term
  | afterTerm (latest : ProcessTree)
  | messageOpening (channel : ProcessTree)
  | actionsOpening
  | actionName (earlier : List Action)
  | actionArrow (earlier : List Action) (name : String)
  | actionAt (earlier : List Action) (name : String)
  | blockOpening (owner : BlockOwner)
  | declaredName (binder : Binder) (earlier : List Declaration)
  | afterName (binder : Binder) (earlier : List Declaration) (name : String)
  | uri (binder : Binder) (earlier : List Declaration) (name : String)
  | afterUri (binder : Binder) (declarations : List Declaration)
  | afterDeclared (binder : Binder) (declarations : List Declaration)
deriving DecidableEq

/-- A construct in the middle of a chain of terms, with the terms of the chain before it. -/
structure Suspended where
  operands : List ProcessTree
  construct : Construct
deriving DecidableEq

/-- A chain with its last term: one term is itself, more are a parallel composition. -/
def chain (operands : List ProcessTree) (latest : ProcessTree) : ProcessTree :=
  match operands with
  | [] => latest
  | _ :: _ => .par (latest :: operands).reverse

namespace BlockOwner

def complete (body : ProcessTree) : BlockOwner → ProcessTree
  | .receive actions => .receive actions.reverse body
  | .restrict declarations => .restrict declarations.reverse body
  | .bundle => .bundle body

end BlockOwner

namespace Construct

/-- Ends the process inside the construct, if the mark is one that may follow it. -/
def close (inner : ProcessTree) : Construct → Punctuation → Option Place
  | .sendChannel, .bang => some (.messageOpening inner)
  | .sendMessage channel, .closeParen => some (.afterTerm (.send channel inner))
  | .actionChannel earlier name, .semicolon => some (.actionName (⟨⟨name⟩, inner⟩ :: earlier))
  | .actionChannel earlier name, .closeParen =>
      some (.blockOpening (.receive (⟨⟨name⟩, inner⟩ :: earlier)))
  | .block owner, .closeBrace => some (.afterTerm (owner.complete inner))
  | _, _ => none

end Construct

/-- A process read in part. The innermost suspended construct comes first, and `operands` belong
to the chain inside it. -/
structure State where
  suspended : List Suspended
  operands : List ProcessTree
  place : Place
deriving DecidableEq

namespace State

/-- Nothing is read yet. -/
def start : State := ⟨[], [], .term⟩

def moveTo (state : State) (place : Place) : State := { state with place := place }

/-- Starts a process of its own inside a construct. -/
def enter (state : State) (construct : Construct) : State :=
  ⟨⟨state.operands, construct⟩ :: state.suspended, [], .term⟩

/-- A word is a whole term, or opens one that goes on. -/
def startWord (state : State) : Keyword → Option State
  | .nil => some (state.moveTo (.afterTerm .nil))
  | .trueValue => some (state.moveTo (.afterTerm (.ground (.bool true))))
  | .falseValue => some (state.moveTo (.afterTerm (.ground (.bool false))))
  | .receive => some (state.moveTo .actionsOpening)
  | .new => some (state.moveTo (.declaredName .new []))
  | .lookup => some (state.moveTo (.declaredName .lookup []))
  | .bundle => some (state.moveTo (.blockOpening .bundle))
  | .within => none

/-- The first token of a term decides what the term is. -/
def startTerm (state : State) : Token → Option State
  | .keyword word => state.startWord word
  | .integer value => some (state.moveTo (.afterTerm (.ground (.int value))))
  | .string content => some (state.moveTo (.afterTerm (.ground (.string content))))
  | .punctuation mark => if mark = .atSign then some (state.enter .sendChannel) else none
  | .uri _ | .identifier _ => none

/-- After a term its chain goes on, or the construct around the chain does. -/
def continueChain (state : State) (latest : ProcessTree) : Token → Option State
  | .punctuation .pipe => some ⟨state.suspended, latest :: state.operands, .term⟩
  | .punctuation mark =>
      match state.suspended with
      | [] => none
      | ⟨operands, construct⟩ :: outer =>
          (construct.close (chain state.operands latest) mark).map fun place =>
            ⟨outer, operands, place⟩
  | _ => none

/-- The state after one more token, if the token can stand here. -/
def step (state : State) (token : Token) : Option State :=
  match state.place, token with
  | .term, token => state.startTerm token
  | .afterTerm latest, token => state.continueChain latest token
  | .messageOpening channel, .punctuation .openParen => some (state.enter (.sendMessage channel))
  | .actionsOpening, .punctuation .openParen => some (state.moveTo (.actionName []))
  | .actionName earlier, .identifier name => some (state.moveTo (.actionArrow earlier name))
  | .actionArrow earlier name, .punctuation .leftArrow =>
      some (state.moveTo (.actionAt earlier name))
  | .actionAt earlier name, .punctuation .atSign =>
      some (state.enter (.actionChannel earlier name))
  | .blockOpening owner, .punctuation .openBrace => some (state.enter (.block owner))
  | .declaredName binder earlier, .identifier name =>
      some (state.moveTo (.afterName binder earlier name))
  | .afterName binder earlier name, .punctuation .openParen =>
      some (state.moveTo (.uri binder earlier name))
  | .afterName .new earlier name, .punctuation .comma =>
      some (state.moveTo (.declaredName .new (⟨name, none⟩ :: earlier)))
  | .afterName .new earlier name, .keyword .within =>
      some (state.moveTo (.blockOpening (.restrict (⟨name, none⟩ :: earlier))))
  | .uri binder earlier name, .uri content =>
      some (state.moveTo (.afterUri binder (⟨name, some content⟩ :: earlier)))
  | .afterUri binder declarations, .punctuation .closeParen =>
      some (state.moveTo (.afterDeclared binder declarations))
  | .afterDeclared binder declarations, .punctuation .comma =>
      some (state.moveTo (.declaredName binder declarations))
  | .afterDeclared _ declarations, .keyword .within =>
      some (state.moveTo (.blockOpening (.restrict declarations)))
  | _, _ => none

/-- The whole process, if the input may end here. -/
def finish? (state : State) : Option ProcessTree :=
  match state.suspended, state.place with
  | [], .afterTerm latest => some (chain state.operands latest)
  | _, _ => none

end State

/-- What a message can say should have come next. -/
inductive Expectation
  | token (token : Token)
  | identifier
  | uri
  | endOfInput
deriving DecidableEq, Repr

namespace Expectation

def describe : Expectation → String
  | .token shown => shown.describe
  | .identifier => "identifier"
  | .uri => "uri"
  | .endOfInput => "end of input"

def mark (punctuation : Punctuation) : Expectation := .token (.punctuation punctuation)

def word (keyword : Keyword) : Expectation := .token (.keyword keyword)

end Expectation

open Expectation in
/-- What may stand after a term of the chain in this construct. -/
def Construct.expected : Construct → List Expectation
  | .sendChannel => [mark .bang, mark .pipe]
  | .sendMessage _ => [mark .closeParen, mark .pipe]
  | .actionChannel _ _ => [mark .closeParen, mark .semicolon, mark .pipe]
  | .block _ => [mark .pipe, mark .closeBrace]

open Expectation in
/-- What may stand at the place where the reading is, in the byte order of the descriptions. Of the
tokens that start a term the literals are left out. -/
def State.expected (state : State) : List Expectation :=
  match state.place with
  | .term =>
      [mark .atSign, word .nil, word .bundle, word .receive, word .lookup, word .new]
  | .afterTerm _ =>
      match state.suspended with
      | [] => [mark .pipe, .endOfInput]
      | innermost :: _ => innermost.construct.expected
  | .messageOpening _ | .actionsOpening => [mark .openParen]
  | .actionName _ | .declaredName _ _ => [.identifier]
  | .actionArrow _ _ => [mark .leftArrow]
  | .actionAt _ _ => [mark .atSign]
  | .blockOpening _ => [mark .openBrace]
  | .afterName .new _ _ => [mark .openParen, mark .comma, word .within]
  | .afterName .lookup _ _ => [mark .openParen]
  | .uri _ _ _ => [.uri]
  | .afterUri _ _ => [mark .closeParen]
  | .afterDeclared _ _ => [mark .comma, word .within]

end RhoFrontend.Reading
