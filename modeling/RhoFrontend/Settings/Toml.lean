import RhoFrontend.Settings.Toml.Scalar

/-!
Settings files in TOML. Headers and dotted keys make tables, and a file that defines a key twice, or
a table in two ways that exclude each other, cannot be read.
-/

namespace RhoFrontend.Settings

/-- What a file says: its outermost keys with their values. -/
abbrev Document := List (String × Value)

namespace Toml

/-- A key has at most this many segments, and lists and tables within values are nested at most so
deep. -/
def nesting : Nat := 79

/-! Tables. -/

/-- How a table came to be: by a header of its own, because a header leads through it, or because a
dotted key does. -/
inductive Origin
  | header
  | passage
  | dotted
deriving DecidableEq

/-- What stands under a key while a file is read. Of a list of tables only the last is open. -/
inductive Node
  | value (value : Value)
  | table (origin : Origin) (fields : List (String × Node))
  | tables (earlier : List Value) (last : List (String × Node))

abbrev Fields := List (String × Node)

mutual

def Node.toValue : Node → Value
  | .value value => value
  | .table _ fields => .table (valuesOf fields)
  | .tables earlier last => .array (earlier ++ [.table (valuesOf last)])

def valuesOf : List (String × Node) → List (String × Value)
  | [] => []
  | (name, node) :: rest => (name, node.toValue) :: valuesOf rest

end

/-- Changes the table that a header leads to, through the last of a list of tables. Tables that are
not there yet are made on the way. -/
def within (change : Fields → Option Fields) : Key → Fields → Option Fields
  | [], fields => change fields
  | name :: names, fields =>
      match fields.lookup name with
      | none => (within change names []).map fun inner =>
          setField name (.table .passage inner) fields
      | some (.table origin inner) => (within change names inner).map fun inner =>
          setField name (.table origin inner) fields
      | some (.tables earlier last) => (within change names last).map fun last =>
          setField name (.tables earlier last) fields
      | some (.value _) => none

/-- Opens a table, unless a header or a dotted key has made it or something else has its name. -/
def openTable? (name : String) (fields : Fields) : Option Fields :=
  match fields.lookup name with
  | none => some (setField name (.table .header []) fields)
  | some (.table .passage inner) => some (setField name (.table .header inner) fields)
  | some _ => none

/-- Opens one more table of a list of tables, unless something else has its name. -/
def openItem? (name : String) (fields : Fields) : Option Fields :=
  match fields.lookup name with
  | none => some (setField name (.tables [] []) fields)
  | some (.tables earlier last) =>
      some (setField name (.tables (earlier ++ [.table (valuesOf last)]) []) fields)
  | some _ => none

/-- Gives a key its first value. A dotted key leads through no table with a header of its own, and
its value lands in a table that dotted keys have made. It may lead through the last of a list of
tables, but its value does not land there. -/
def assign? (lands : Bool) (value : Value) : Key → Fields → Option Fields
  | [], _ => none
  | [name], fields =>
      if lands && (fields.lookup name).isNone then some (setField name (.value value) fields)
      else none
  | name :: names, fields =>
      match fields.lookup name with
      | none => (assign? true value names []).map fun inner =>
          setField name (.table .dotted inner) fields
      | some (.table .header _) | some (.value _) => none
      | some (.table origin inner) =>
          (assign? (origin = .dotted) value names inner).map fun inner =>
            setField name (.table origin inner) fields
      | some (.tables earlier last) => (assign? false value names last).map fun last =>
          setField name (.tables earlier last) fields

/-! Values. -/

/-- Items with commas between them, as many as can be read. -/
def separated {Item : Type} (item? : List Char → Option (Item × List Char)) (text : List Char) :
    List Item × List Char :=
  match item? text with
  | none => ([], text)
  | some (item, after) =>
      match after with
      | ',' :: rest =>
          if rest.length < text.length then
            match separated item? rest with
            | ([], _) => ([item], after)
            | (later, behind) => (item :: later, behind)
          else ([item], after)
      | _ => ([item], after)
termination_by text.length

/-- A list after its opening bracket. A comma may follow its last item, and comments and line ends
may stand between all parts. -/
def array? (value? : List Char → Option (Value × List Char)) (text : List Char) :
    Option (Value × List Char) :=
  let skip := skipLayout (some '#') false
  let item? (text : List Char) := (value? (skip text)).map fun (value, after) => (value, skip after)
  let (items, after) := separated item? text
  match skip after with
  | ']' :: rest => some (.array items, rest)
  | ',' :: rest =>
      match skip rest with
      | ']' :: rest => if items.isEmpty then none else some (.array items, rest)
      | _ => none
  | _ => none

/-- A key and its value. -/
def pair? (value? : List Char → Option (Value × List Char)) (text : List Char) :
    Option ((Key × Value) × List Char) :=
  match key? nesting text with
  | some (key, '=' :: rest) =>
      (value? (skipSpace rest)).map fun (value, after) => ((key, value), skipSpace after)
  | _ => none

/-- A table on one line, after its opening brace. -/
def inlineTable? (value? : List Char → Option (Value × List Char)) (text : List Char) :
    Option (Value × List Char) :=
  let (pairs, after) := separated (pair? value?) text
  match skipSpace after with
  | '}' :: rest =>
      (pairs.foldlM (fun fields (key, value) => assign? true value key fields) []).map fun fields =>
        (.table (valuesOf fields), rest)
  | _ => none

/-- A value with lists and tables in it that are nested at most `limit` deep. -/
def value? : Nat → List Char → Option (Value × List Char)
  | limit + 1, '[' :: rest => array? (value? limit) rest
  | limit + 1, '{' :: rest => inlineTable? (value? limit) rest
  | _, text => scalar? text

/-! Files. -/

/-- The tables of a file read so far, and the header that it is under. -/
structure Reading where
  header : Key
  fields : Fields

namespace Reading

/-- The file under a header, which makes a change where the table of the header belongs. -/
def enter? (reading : Reading) (change : String → Fields → Option Fields) (header : Key) :
    Option Reading := do
  let name ← header.getLast?
  let fields ← within (change name) header.dropLast reading.fields
  return ⟨header, fields⟩

/-- One line with what stands on it, and further ones where its value has them. -/
def line? (reading : Reading) (text : List Char) : Option (Reading × List Char) :=
  match skipSpace text with
  | '[' :: '[' :: rest =>
      match key? nesting rest with
      | some (header, ']' :: ']' :: after) =>
          return (← reading.enter? openItem? header, ← afterLine? after)
      | _ => none
  | '[' :: rest =>
      match key? nesting rest with
      | some (header, ']' :: after) =>
          return (← reading.enter? openTable? header, ← afterLine? after)
      | _ => none
  | content =>
      match afterLine? content with
      | some rest => some (reading, rest)
      | none => do
          let ((key, value), after) ← pair? (value? nesting) content
          let fields ← within (assign? true value key) reading.header reading.fields
          return ({ reading with fields }, ← afterLine? after)

/-- The file after all lines of a text. -/
def lines? (reading : Reading) (text : List Char) : Option Reading :=
  if text.isEmpty then some reading
  else
    match reading.line? text with
    | some (next, rest) => if rest.length < text.length then next.lines? rest else none
    | none => none
termination_by text.length

end Reading

/-- The text of a file after the byte order mark that it may start with. -/
def content (text : List Char) : List Char :=
  match text with
  | '\uFEFF' :: rest => rest
  | _ => text

/-- What a file says, if it is well formed. -/
def document? (text : String) : Option Document :=
  (Reading.lines? ⟨[], []⟩ (content text.toList)).map fun reading => valuesOf reading.fields

end Toml

end RhoFrontend.Settings
