import RhoFrontend.Assertion.Failure

/-!
Assertion scripts. A script names the kind that a process has to have and then checks parts of it in
turn; scripts for subprocesses stand inside. A run ends with the first check that fails.
-/

namespace RhoFrontend.Assertion

inductive GroundCheck
  | int (expected : Int64)
  | bool (expected : Bool)
  | string (expected : TextExpectation)
deriving DecidableEq, Repr

mutual

/-- What a process is expected to be. `anything` checks nothing. -/
inductive Script
  | anything
  | nil
  | ground (checks : List GroundCheck)
  | send (checks : List SendCheck)
  | receive (checks : List ReceiveCheck)
  | par (checks : List ParCheck)
  | restrict (checks : List RestrictCheck)
  | bundle (bodies : List Script)

inductive SendCheck
  | channel (script : Script)
  | message (script : Script)

inductive ReceiveCheck
  | actionCount (expected : Nat)
  | action (index : Nat) (checks : List ActionCheck)
  | body (script : Script)

inductive ActionCheck
  | binds (expected : List String)
  | channel (script : Script)

inductive ParCheck
  | operandCount (expected : Nat)
  | operand (index : Nat) (script : Script)

inductive RestrictCheck
  | names (expected : List String)
  | uri (index : Nat) (expected : String)
  | noUri (index : Nat)
  | body (script : Script)

end

/-- A failure at this place unless the condition holds. -/
def failUnless (condition : Bool) (path : Path) (difference : Difference) : Option Failure :=
  if condition then none else some ⟨path, difference⟩

namespace GroundCheck

def failure? (path : Path) (value : Ground) : GroundCheck → Option Failure
  | .int expected => failUnless (value == .int expected) path (.int expected value)
  | .bool expected => failUnless (value == .bool expected) path (.bool expected value)
  | .string expected =>
      match value with
      | .string actual => failUnless (expected.accepts actual) path (.text expected actual)
      | _ => some ⟨path, .notString value⟩

end GroundCheck

/-- The declaration at an index has to be bound to this very resource. -/
def uriFailure? (path : Path) (declarations : List Declaration) (index : Nat)
    (expected : String) : Option Failure :=
  let place := path ++ [.declaration index]
  match declarations[index]? with
  | none => some ⟨place, .declarationMissing⟩
  | some ⟨_, none⟩ => some ⟨place, .uriMissing expected⟩
  | some ⟨_, some uri⟩ =>
      failUnless ((TextExpectation.equals expected).accepts uri) place (.text (.equals expected) uri)

/-- The declaration at an index has to be bound to nothing. -/
def noUriFailure? (path : Path) (declarations : List Declaration) (index : Nat) :
    Option Failure :=
  let place := path ++ [.declaration index]
  match declarations[index]? with
  | none => some ⟨place, .declarationMissing⟩
  | some ⟨_, none⟩ => none
  | some ⟨_, some uri⟩ => some ⟨place, .uriPresent uri⟩

mutual

/-- The first check of a script that the process at this path fails. -/
def Script.failure? (path : Path) (process : ProcessTree) : Script → Option Failure
  | .anything => none
  | .nil =>
      match process with
      | .nil => none
      | _ => some ⟨path, .kind .nil process.kind⟩
  | .ground checks =>
      match process with
      | .ground value => checks.findSome? (GroundCheck.failure? path value)
      | _ => some ⟨path, .kind .ground process.kind⟩
  | .send checks =>
      match process with
      | .send channel message => SendCheck.listFailure? path channel message checks
      | _ => some ⟨path, .kind .send process.kind⟩
  | .receive checks =>
      match process with
      | .receive actions body => ReceiveCheck.listFailure? path actions body checks
      | _ => some ⟨path, .kind .receive process.kind⟩
  | .par checks =>
      match process with
      | .par operands => ParCheck.listFailure? path operands checks
      | _ => some ⟨path, .kind .par process.kind⟩
  | .restrict checks =>
      match process with
      | .restrict declarations body =>
          RestrictCheck.listFailure? path declarations body checks
      | _ => some ⟨path, .kind .restrict process.kind⟩
  | .bundle bodies =>
      match process with
      | .bundle body => Script.listFailure? (path ++ [.bundled]) body bodies
      | _ => some ⟨path, .kind .bundle process.kind⟩

def Script.listFailure? (path : Path) (process : ProcessTree) : List Script → Option Failure
  | [] => none
  | script :: rest => script.failure? path process <|> Script.listFailure? path process rest

def SendCheck.listFailure? (path : Path) (channel message : ProcessTree) :
    List SendCheck → Option Failure
  | [] => none
  | .channel script :: rest =>
      script.failure? (path ++ [.channel]) channel <|>
        SendCheck.listFailure? path channel message rest
  | .message script :: rest =>
      script.failure? (path ++ [.message]) message <|>
        SendCheck.listFailure? path channel message rest

def ReceiveCheck.listFailure? (path : Path) (actions : List Action) (body : ProcessTree) :
    List ReceiveCheck → Option Failure
  | [] => none
  | .actionCount expected :: rest =>
      failUnless (actions.length == expected) path (.actionCount expected actions.length) <|>
        ReceiveCheck.listFailure? path actions body rest
  | .action index checks :: rest =>
      (match actions[index]? with
        | some action => ActionCheck.listFailure? (path ++ [.action index]) action checks
        | none => some ⟨path, .actionMissing index actions.length⟩) <|>
        ReceiveCheck.listFailure? path actions body rest
  | .body script :: rest =>
      script.failure? (path ++ [.body]) body <|>
        ReceiveCheck.listFailure? path actions body rest

def ActionCheck.listFailure? (path : Path) (action : Action) :
    List ActionCheck → Option Failure
  | [] => none
  | .binds expected :: rest =>
      let found := action.pattern.boundNames
      failUnless (found == expected) path (.boundNames expected found) <|>
        ActionCheck.listFailure? path action rest
  | .channel script :: rest =>
      script.failure? (path ++ [.channel]) action.channel <|>
        ActionCheck.listFailure? path action rest

def ParCheck.listFailure? (path : Path) (operands : List ProcessTree) :
    List ParCheck → Option Failure
  | [] => none
  | .operandCount expected :: rest =>
      failUnless (operands.length == expected) path
          (.operandCount expected (operands.map ProcessTree.kind)) <|>
        ParCheck.listFailure? path operands rest
  | .operand index script :: rest =>
      (match operands[index]? with
        | some operand => script.failure? (path ++ [.operand index]) operand
        | none => some ⟨path, .operandMissing index operands.length⟩) <|>
        ParCheck.listFailure? path operands rest

def RestrictCheck.listFailure? (path : Path) (declarations : List Declaration)
    (body : ProcessTree) : List RestrictCheck → Option Failure
  | [] => none
  | .names expected :: rest =>
      let found := declarations.map Declaration.name
      failUnless (found == expected) path (.names expected found) <|>
        RestrictCheck.listFailure? path declarations body rest
  | .uri index expected :: rest =>
      uriFailure? path declarations index expected <|>
        RestrictCheck.listFailure? path declarations body rest
  | .noUri index :: rest =>
      noUriFailure? path declarations index <|>
        RestrictCheck.listFailure? path declarations body rest
  | .body script :: rest =>
      script.failure? (path ++ [.body]) body <|>
        RestrictCheck.listFailure? path declarations body rest

end

def run (script : Script) (process : ProcessTree) : Except Failure Unit :=
  match script.failure? [] process with
  | some failure => .error failure
  | none => .ok ()

end RhoFrontend.Assertion
