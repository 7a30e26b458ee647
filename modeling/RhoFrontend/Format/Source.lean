import RhoFrontend.ProcessTree.Basic
import RhoFrontend.Text.Quoted
import RhoFrontend.Token.Lexeme

/-!
Canonical source text: the tokens of a tree on one line, with spaces where a reader wants them.
Not every tree has such a text, because some shapes and names have no place in the grammar; the
first thing in the way, in the order of the text, is the reason given.
-/

namespace RhoFrontend

inductive Unprintable
  | nestedPar
  | fewOperands
  | noActions
  | noNames
  | quoteInString (value : String)
  | backtickInUri (uri : String)
  | keywordName (name : String)
  | notIdentifier (name : String)
deriving DecidableEq, Repr

namespace Unprintable

def reason : Unprintable → String
  | .nestedPar => "nested parallel composition"
  | .fewOperands => "parallel composition with fewer than two operands"
  | .noActions => "receive without actions"
  | .noNames => "restriction without names"
  | .quoteInString value => "string " ++ Text.quoted value ++ " contains a double quote"
  | .backtickInUri uri => "uri " ++ Text.quoted uri ++ " contains a backtick"
  | .keywordName name => Text.quoted name ++ " is a keyword"
  | .notIdentifier name => Text.quoted name ++ " is not an identifier"

/-- A name has to be read back as one identifier. -/
def ofName (name : String) : List Unprintable :=
  match (Piece.ofText name.toList).map Piece.lexeme with
  | [.token (.identifier _)] => []
  | [.token (.keyword _)] => [.keywordName name]
  | _ => [.notIdentifier name]

/-- A literal has no escapes, so a string cannot hold the quote that would end it. -/
def ofGround : Ground → List Unprintable
  | .string value => if '"' ∈ value.toList then [.quoteInString value] else []
  | _ => []

def ofUri (uri : String) : List Unprintable :=
  if '\x60' ∈ uri.toList then [.backtickInUri uri] else []

def ofDeclaration (declaration : Declaration) : List Unprintable :=
  ofName declaration.name ++ declaration.uri.toList.flatMap ofUri

end Unprintable

mutual

/-- Everything that keeps a tree from being written, in the order of the text. -/
def ProcessTree.unprintable : ProcessTree → List Unprintable
  | .nil => []
  | .ground value => Unprintable.ofGround value
  | .send channel message => channel.unprintable ++ message.unprintable
  | .receive actions body =>
      (if actions.isEmpty then [.noActions] else []) ++
        (Action.listUnprintable actions ++ body.unprintable)
  | .par operands =>
      (if operands.length < 2 then [.fewOperands] else []) ++ ProcessTree.listUnprintable operands
  | .restrict declarations body =>
      (if declarations.isEmpty then [.noNames] else []) ++
        (declarations.flatMap Unprintable.ofDeclaration ++ body.unprintable)
  | .bundle body => body.unprintable

def Action.listUnprintable : List Action → List Unprintable
  | [] => []
  | ⟨pattern, channel⟩ :: rest =>
      pattern.boundNames.flatMap Unprintable.ofName ++
        (channel.unprintable ++ Action.listUnprintable rest)

def ProcessTree.listUnprintable : List ProcessTree → List Unprintable
  | [] => []
  | operand :: rest =>
      (if operand.isPar then [.nestedPar] else []) ++
        (operand.unprintable ++ ProcessTree.listUnprintable rest)

end

namespace Token

def mark (punctuation : Punctuation) : Token := .punctuation punctuation

def word (keyword : Keyword) : Token := .keyword keyword

def ofGround : Ground → Token
  | .int value => .integer value
  | .string value => .string value
  | .bool value => .keyword (if value then .trueValue else .falseValue)

def ofDeclaration : Declaration → List Token
  | ⟨name, none⟩ => [.identifier name]
  | ⟨name, some resource⟩ => [.identifier name, mark .openParen, .uri resource, mark .closeParen]

def ofDeclarations : List Declaration → List Token
  | [] => []
  | [last] => ofDeclaration last
  | first :: rest => ofDeclaration first ++ mark .comma :: ofDeclarations rest

end Token

open Token in
mutual

def ProcessTree.tokens : ProcessTree → List Token
  | .nil => [word .nil]
  | .ground value => [Token.ofGround value]
  | .send channel message =>
      mark .atSign :: (channel.tokens ++
        mark .bang :: mark .openParen :: (message.tokens ++ [mark .closeParen]))
  | .receive actions body =>
      word .receive :: mark .openParen :: (Action.listTokens actions ++
        mark .closeParen :: mark .openBrace :: (body.tokens ++ [mark .closeBrace]))
  | .par operands => ProcessTree.listTokens operands
  | .restrict declarations body =>
      word .new :: (Token.ofDeclarations declarations ++
        word .within :: mark .openBrace :: (body.tokens ++ [mark .closeBrace]))
  | .bundle body => word .bundle :: mark .openBrace :: (body.tokens ++ [mark .closeBrace])

def Action.tokens : Action → List Token
  | ⟨pattern, channel⟩ =>
      .identifier pattern.name :: mark .leftArrow :: mark .atSign :: channel.tokens

def Action.listTokens : List Action → List Token
  | [] => []
  | [last] => last.tokens
  | first :: rest => first.tokens ++ mark .semicolon :: Action.listTokens rest

def ProcessTree.listTokens : List ProcessTree → List Token
  | [] => []
  | [last] => last.tokens
  | first :: rest => first.tokens ++ mark .pipe :: ProcessTree.listTokens rest

end

namespace SourceText

/-- Tokens that have a space after them wherever they stand. -/
def spaceAfter : Token → Bool
  | .keyword .receive | .keyword .new | .keyword .within | .keyword .bundle => true
  | .punctuation .leftArrow | .punctuation .semicolon | .punctuation .comma
  | .punctuation .openBrace | .punctuation .pipe => true
  | _ => false

/-- Tokens that have a space before them wherever they stand. -/
def spaceBefore : Token → Bool
  | .keyword .within => true
  | .punctuation .leftArrow | .punctuation .pipe | .punctuation .openBrace
  | .punctuation .closeBrace => true
  | _ => false

/-- Tokens on one line with at most one space between two of them. -/
def ofTokens : List Token → List Char
  | [] => []
  | [last] => last.spelling
  | left :: right :: rest =>
      left.spelling ++ (if spaceAfter left || spaceBefore right then [' '] else []) ++
        ofTokens (right :: rest)

end SourceText

namespace ProcessTree

/-- The canonical source text of a tree, or the first reason that there is none. -/
def toSource (process : ProcessTree) : Except Unprintable String :=
  match process.unprintable with
  | [] => .ok (String.ofList (SourceText.ofTokens process.tokens))
  | first :: _ => .error first

end ProcessTree

end RhoFrontend
