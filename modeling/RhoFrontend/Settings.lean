import RhoFrontend.Format
import RhoFrontend.Settings.Toml
import RhoFrontend.Token.Stream

/-!
Settings from layers. Files are laid over the built-in settings in order, and overrides over all
files, wherever they stand among them.
-/

namespace RhoFrontend

inductive SettingsError
  | malformedKey (layer : Nat)
  | missingFile
  | unreadableFile
  | wrongType
  | invalid
deriving DecidableEq, Repr

structure Settings where
  options : Options
  format : Format
deriving DecidableEq, Repr

namespace Settings

/-- A layer over the built-in settings. A file is given by its content, or as absent. -/
inductive Layer
  | override (key : String) (value : Value)
  | file (content : Option String)
  | optionalFile (content : Option String)

/-- A setting by its key and the outermost table that it is in. -/
structure Known where
  table : String
  key : String
deriving DecidableEq, Repr

def Known.path (known : Known) : Path := [.key known.table, .key known.key]

def strictLineComments : Known := ⟨"syntax", "terminal_line_comment_requires_newline"⟩

def outputFormat : Known := ⟨"output", "format"⟩

/-- The settings under no layer. Each is the only one of its table. -/
def builtIn : Value := .table
  [(strictLineComments.table, .table [(strictLineComments.key, .bool false)]),
    (outputFormat.table, .table [(outputFormat.key, .string Format.standard.name)])]

def isKeyChar (char : Char) : Bool :=
  char.isAlphanum || char == '_' || char == '-' || char == ' '

/-- The parts of a text between its dots. -/
def splitAtDots : List Char → List (List Char)
  | [] => [[]]
  | '.' :: rest => [] :: splitAtDots rest
  | char :: rest =>
      match splitAtDots rest with
      | [] => [[char]]
      | part :: later => (char :: part) :: later

/-- The position between two brackets, a 64-bit integer which may have blanks around it. -/
def position? (text : List Char) : Option Int :=
  let trimmed := ((text.dropWhile Toml.isSpace).reverse.dropWhile Toml.isSpace).reverse
  let (negative, digits) : Bool × List Char :=
    match trimmed with
    | '-' :: rest => (true, rest)
    | rest => (false, rest)
  if digits.isEmpty || !digits.all Char.isDigit then none
  else (Integer.ofInt? (Integer.valueOfDigits negative digits)).map Int64.toInt

/-- Positions in brackets, one after the other, and nothing else. -/
def items? : List Char → Option Path
  | [] => some []
  | '[' :: rest =>
      let inside := rest.takeWhile (· != ']')
      if inside.length < rest.length then
        match position? inside, items? (rest.drop (inside.length + 1)) with
        | some position, some later => some (.item position :: later)
        | _, _ => none
      else none
  | _ => none
termination_by text => text.length
decreasing_by
  simp only [List.length_drop, List.length_cons]
  omega

/-- A key with the positions that follow it. -/
def steps? (part : List Char) : Option Path :=
  let name := part.takeWhile isKeyChar
  if name.isEmpty then none
  else (items? (part.drop name.length)).map fun items =>
    .key (String.ofList name).toLower :: items

/-- The path of a key that is written with dots. -/
def pathOfKey? (key : String) : Option Path :=
  ((splitAtDots key.toList).mapM steps?).map List.flatten

/-- Where an outermost key of a file puts its value. The key may itself be written with dots, which
takes quotes around it in the file. -/
def pathInFile (name : String) : Path := (pathOfKey? name).getD [.key name.toLower]

/-- The settings with what a file says laid over them. -/
def layOver (settings : Value) (document : Document) : Value :=
  document.foldl (fun settings (name, value) => settings.put (pathInFile name) value) settings

/-- An override has the path of its key, where only the last one of each path counts. -/
def lastOfEach : List (Path × Value) → List (Path × Value)
  | [] => []
  | (path, value) :: later =>
      if later.any fun (other, _) => other = path then lastOfEach later
      else (path, value) :: lastOfEach later

namespace Layer

/-- The override of the layer if it is one, which fails where its key is malformed. -/
def override? : Layer → Nat → Except SettingsError (Option (Path × Value))
  | .override key value, index =>
      match pathOfKey? key with
      | some path => .ok (some (path, value))
      | none => .error (.malformedKey index)
  | .file _, _ | .optionalFile _, _ => .ok none

/-- What the layer says as a file, to a reader of files, if it is a file that is there. -/
def fromFile (read : String → Option Document) : Layer → Except SettingsError (Option Document)
  | .override _ _ | .optionalFile none => .ok none
  | .file none => .error .missingFile
  | .file (some content) | .optionalFile (some content) =>
      match read content with
      | some document => .ok (some document)
      | none => .error .unreadableFile

end Layer

/-- The value of a setting that is the only one of its table. A list stands for such a table by its
first item. -/
def Known.value? (known : Known) (settings : Value) : Option Value :=
  match settings.field? known.table with
  | some (.array items) => items.head?
  | some table => table.field? known.key
  | none => none

/-- Whether line comments are strict is a truth value of any spelling. -/
def strictness : Option Value → Except SettingsError Bool
  | none => .error .invalid
  | some value =>
      match value.toBool? with
      | some strict => .ok strict
      | none => .error .wrongType

/-- A format is given by its name, as a string or as the only key of a table. -/
def formatOf : Option Value → Except SettingsError Format
  | some (.string name) | some (.table [(name, _)]) =>
      (Format.ofName name.toLower).mapError fun _ => .invalid
  | _ => .error .invalid

/-- The settings that a tree of values amounts to. -/
def ofValue (settings : Value) : Except SettingsError Settings := do
  let strict ← strictness (strictLineComments.value? settings)
  let format ← formatOf (outputFormat.value? settings)
  return ⟨⟨strict⟩, format⟩

/-- Settings under all layers, whose files have a given reader. Malformed keys are found before any
file is read. -/
def ofLayersReading (read : String → Option Document) (layers : List Layer) :
    Except SettingsError Settings := do
  let overrides ← layers.zipIdx.mapM fun (layer, index) => layer.override? index
  let documents ← layers.mapM (Layer.fromFile read)
  let underOverrides := (documents.filterMap id).foldl layOver builtIn
  ofValue ((lastOfEach (overrides.filterMap id)).foldl
    (fun settings (path, value) => settings.put path value) underOverrides)

/-- Settings under all layers, whose files are in TOML. -/
def ofLayers (layers : List Layer) : Except SettingsError Settings :=
  ofLayersReading Toml.document? layers

end Settings

end RhoFrontend
