import RhoFrontend.Format.Source
import RhoFrontend.ProcessTree.Reading

/-!
The grammar of processes as a relation between phrases and token sequences. Nothing here is read
from left to right: a phrase derives a sequence if some rule splits it into the parts that the rule
asks for. What can be read, where an error stands and what was expected there are all stated
against this relation.
-/

namespace RhoFrontend.Grammar

open Reading (Binder)
open Token (mark word)

def binderWord : Binder → Token
  | .new => word .new
  | .lookup => word .lookup

/-- What a rule of the grammar is about, with the value that a match is reduced to. The plural
phrases are lists with at least one item and a separator between two. -/
inductive Phrase
  | process (tree : ProcessTree)
  | terms (trees : List ProcessTree)
  | term (tree : ProcessTree)
  | ground (value : Ground)
  | name (channel : ProcessTree)
  | action (action : Action)
  | actions (actions : List Action)
  | declaration (binder : Binder) (declaration : Declaration)
  | declarations (binder : Binder) (declarations : List Declaration)
  | block (body : ProcessTree)

/-- The rules. A process of one term is that term, and a longer chain is one parallel composition.
A restriction keeps no trace of the word that opened it, but after `lookup` a name without a uri
has no rule. -/
inductive Derives : Phrase → List Token → Prop
  | single {tree : ProcessTree} {tokens : List Token} (only : Derives (.term tree) tokens) :
      Derives (.process tree) tokens
  | parallel {trees : List ProcessTree} {tokens : List Token} (several : 2 ≤ trees.length)
      (all : Derives (.terms trees) tokens) : Derives (.process (.par trees)) tokens
  | lastTerm {tree : ProcessTree} {tokens : List Token} (last : Derives (.term tree) tokens) :
      Derives (.terms [tree]) tokens
  | moreTerms {tree : ProcessTree} {trees : List ProcessTree} {tokens rest : List Token}
      (first : Derives (.term tree) tokens) (others : Derives (.terms trees) rest) :
      Derives (.terms (tree :: trees)) (tokens ++ mark .pipe :: rest)
  | nil : Derives (.term .nil) [word .nil]
  | literal {value : Ground} {tokens : List Token} (ground : Derives (.ground value) tokens) :
      Derives (.term (.ground value)) tokens
  | send {channel message : ProcessTree} {tokens rest : List Token}
      (channelName : Derives (.name channel) tokens) (content : Derives (.process message) rest) :
      Derives (.term (.send channel message))
        (tokens ++ mark .bang :: mark .openParen :: (rest ++ [mark .closeParen]))
  | receive {actions : List Action} {body : ProcessTree} {tokens rest : List Token}
      (bindings : Derives (.actions actions) tokens) (inner : Derives (.block body) rest) :
      Derives (.term (.receive actions body))
        (word .receive :: mark .openParen :: (tokens ++ mark .closeParen :: rest))
  | restrict {binder : Binder} {declarations : List Declaration} {body : ProcessTree}
      {tokens rest : List Token} (names : Derives (.declarations binder declarations) tokens)
      (inner : Derives (.block body) rest) :
      Derives (.term (.restrict declarations body))
        (binderWord binder :: (tokens ++ word .within :: rest))
  | bundle {body : ProcessTree} {tokens : List Token} (inner : Derives (.block body) tokens) :
      Derives (.term (.bundle body)) (word .bundle :: tokens)
  | integer (value : Int64) : Derives (.ground (.int value)) [.integer value]
  | string (content : String) : Derives (.ground (.string content)) [.string content]
  | trueValue : Derives (.ground (.bool true)) [word .trueValue]
  | falseValue : Derives (.ground (.bool false)) [word .falseValue]
  | name {channel : ProcessTree} {tokens : List Token} (inner : Derives (.process channel) tokens) :
      Derives (.name channel) (mark .atSign :: tokens)
  | action {bound : String} {channel : ProcessTree} {tokens : List Token}
      (channelName : Derives (.name channel) tokens) :
      Derives (.action ⟨⟨bound⟩, channel⟩) (.identifier bound :: mark .leftArrow :: tokens)
  | lastAction {action : Action} {tokens : List Token} (last : Derives (.action action) tokens) :
      Derives (.actions [action]) tokens
  | moreActions {action : Action} {actions : List Action} {tokens rest : List Token}
      (first : Derives (.action action) tokens) (others : Derives (.actions actions) rest) :
      Derives (.actions (action :: actions)) (tokens ++ mark .semicolon :: rest)
  | plain (name : String) : Derives (.declaration .new ⟨name, none⟩) [.identifier name]
  | located (binder : Binder) (name resource : String) :
      Derives (.declaration binder ⟨name, some resource⟩)
        [.identifier name, mark .openParen, .uri resource, mark .closeParen]
  | lastDeclaration {binder : Binder} {declaration : Declaration} {tokens : List Token}
      (last : Derives (.declaration binder declaration) tokens) :
      Derives (.declarations binder [declaration]) tokens
  | moreDeclarations {binder : Binder} {declaration : Declaration}
      {declarations : List Declaration} {tokens rest : List Token}
      (first : Derives (.declaration binder declaration) tokens)
      (others : Derives (.declarations binder declarations) rest) :
      Derives (.declarations binder (declaration :: declarations)) (tokens ++ mark .comma :: rest)
  | block {body : ProcessTree} {tokens : List Token} (inner : Derives (.process body) tokens) :
      Derives (.block body) (mark .openBrace :: (tokens ++ [mark .closeBrace]))

/-- The tokens are a complete program. -/
def Complete (tokens : List Token) : Prop := ∃ tree, Derives (.process tree) tokens

/-- Something can follow the tokens so that a complete program results. -/
def Viable (tokens : List Token) : Prop := ∃ continuation, Complete (tokens ++ continuation)

theorem viable_of_append {tokens rest : List Token} (viable : Viable (tokens ++ rest)) :
    Viable tokens := by
  obtain ⟨continuation, complete⟩ := viable
  exact ⟨rest ++ continuation, by rwa [← List.append_assoc]⟩

/-- The place where tokens stop being part of a program: those before it can be continued, and the
one at it cannot come next. After all tokens, it is the end of the input that cannot. -/
structure BreaksAt (tokens : List Token) (index : Nat) : Prop where
  within : index ≤ tokens.length
  viable : Viable (tokens.take index)
  blocked : index < tokens.length → ¬ Viable (tokens.take (index + 1))
  incomplete : index = tokens.length → ¬ Complete tokens

theorem BreaksAt.not_lt {tokens : List Token} {first second : Nat}
    (left : BreaksAt tokens first) (right : BreaksAt tokens second) : ¬ first < second := by
  intro before
  have inside : first < tokens.length := Nat.lt_of_lt_of_le before right.within
  apply left.blocked inside
  have part := right.viable
  rw [← List.take_append_drop (first + 1) (tokens.take second), List.take_take,
    Nat.min_eq_left before] at part
  exact viable_of_append part

theorem BreaksAt.unique {tokens : List Token} {first second : Nat}
    (left : BreaksAt tokens first) (right : BreaksAt tokens second) : first = second := by
  have notBefore := left.not_lt right
  have notAfter := right.not_lt left
  omega

/-- The bar, the semicolon and the comma separate alike, so lists are joined by one argument: items
that each have a separator after them go in front of a list that ends without one. -/
inductive Separated {Item : Type} (item : Item → List Token → Prop) (separator : Token) :
    List Item → List Token → Prop
  | none : Separated item separator [] []
  | more {latest : Item} {earlier : List Item} {tokens rest : List Token}
      (before : Separated item separator earlier tokens) (last : item latest rest) :
      Separated item separator (latest :: earlier) (tokens ++ (rest ++ [separator]))

theorem Separated.join {Item : Type} {item : Item → List Token → Prop} {separator : Token}
    (list : List Item → List Token → Prop)
    (more : ∀ {first : Item} {others : List Item} {tokens rest : List Token}, item first tokens →
      list others rest → list (first :: others) (tokens ++ separator :: rest))
    {earlier others : List Item} {tokens rest : List Token}
    (separated : Separated item separator earlier tokens) (derived : list others rest) :
    list (earlier.reverse ++ others) (tokens ++ rest) := by
  induction separated generalizing others rest with
  | none => exact derived
  | more before last induction =>
      have extended := induction (more last derived)
      simpa only [List.reverse_cons, List.append_assoc, List.singleton_append] using extended

end RhoFrontend.Grammar
