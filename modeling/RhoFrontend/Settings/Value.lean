import RhoFrontend.Text.Decimal

/-!
Settings as nested tables and lists. A value put at a path joins what is there where both are
tables, and takes its place where not.
-/

namespace RhoFrontend.Settings

inductive Value
  | null
  | bool (value : Bool)
  | integer (value : Int)
  | decimal (value : Decimal)
  /-- An infinity, or what is no number at all. -/
  | notFinite
  | string (value : String)
  | array (items : List Value)
  | table (fields : List (String × Value))

/-- The words that count as a truth value, whatever their letter case. -/
def truthWord? (word : String) : Option Bool :=
  match word.toLower with
  | "1" | "true" | "on" | "yes" => some true
  | "0" | "false" | "off" | "no" => some false
  | _ => none

/-- Puts an item under a name. A name that is there keeps its place. -/
def setField {Item : Type} (name : String) (item : Item) :
    List (String × Item) → List (String × Item)
  | [] => [(name, item)]
  | (other, earlier) :: rest =>
      if other = name then (name, item) :: rest else (other, earlier) :: setField name item rest

/-- One step inwards: to a key of a table, or to an item of a list. Positions are counted from zero,
and those below zero back from the end. -/
inductive Segment
  | key (name : String)
  | item (position : Int)
deriving DecidableEq, Repr

/-- The steps to a setting, outermost first. Keys are in lower case. -/
abbrev Path := List Segment

/-- The place of a position in a list of this length. What would come before the first item is the
first. -/
def placeOf (length : Nat) (position : Int) : Nat :=
  (if position < 0 then length + position else position).toNat

namespace Value

/-- A list of strings. -/
def list (words : List String) : Value := .array (words.map .string)

/-- The truth value of a setting. A number is true unless it is zero, in double precision where it
has a fraction or an exponent. -/
def toBool? : Value → Option Bool
  | .bool value => some value
  | .integer value => some (value != 0)
  | .decimal value => some !value.underflows
  | .notFinite => some true
  | .string word => truthWord? word
  | .null | .array _ | .table _ => none

/-- The fields of a table. Nothing else has any. -/
def fields : Value → List (String × Value)
  | .table fields => fields
  | _ => []

/-- The items of a list. Nothing else has any. -/
def items : Value → List Value
  | .array items => items
  | _ => []

def field? (value : Value) (name : String) : Option Value := value.fields.lookup name

/-- The value with a field set. What is no table becomes one. -/
def withField (value : Value) (name : String) (field : Value) : Value :=
  .table (setField name field value.fields)

/-- The value with an item set, after as many nulls as it takes. What is no list becomes one. -/
def withItem (value : Value) (place : Nat) (item : Value) : Value :=
  let before := value.items.take place
  .array (before ++ List.replicate (place - before.length) .null ++
    item :: value.items.drop (place + 1))

mutual

/-- What a value makes of the one that it is laid over, if there is one. -/
def laidOver : Value → Option Value → Value
  | .table fields, there => fieldsOver fields (there.getD (.table []))
  | value, _ => value

/-- Lays fields over those of a value, one after the other and with their names in lower case. With
the first of them, what is no table becomes one. -/
def fieldsOver : List (String × Value) → Value → Value
  | [], there => there
  | (name, value) :: rest, there =>
      fieldsOver rest (there.withField name.toLower (value.laidOver (there.field? name.toLower)))

end

/-- Changes what a path leads to. What is no table or no list on the way there becomes the one that
the path needs. -/
def alter (change : Option Value → Value) : Path → Option Value → Value
  | [], there => change there
  | .key name :: rest, there =>
      let table := there.getD (.table [])
      table.withField name (alter change rest (table.field? name))
  | .item position :: rest, there =>
      let list := there.getD (.array [])
      let place := placeOf list.items.length position
      list.withItem place (alter change rest list.items[place]?)

/-- Puts a value at a path. It is laid over what a key leads to, and replaces an item of a list. -/
def put (there : Value) (path : Path) (value : Value) : Value :=
  match path.getLast? with
  | some (.item _) => alter (fun _ => value) path (some there)
  | _ => alter value.laidOver path (some there)

end Value

end RhoFrontend.Settings
