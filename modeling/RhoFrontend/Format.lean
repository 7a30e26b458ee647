import RhoFrontend.Format.BoxTree
import RhoFrontend.Format.Json
import RhoFrontend.Format.Source
import RhoFrontend.Format.Tag

/-!
The output formats, by name.
-/

namespace RhoFrontend

inductive FormatError
  | notFound (name : String)
  | unprintable (cause : Unprintable)
deriving DecidableEq, Repr

namespace FormatError

def message : FormatError → String
  | .notFound name => s!"Format '{name}' not found"
  | .unprintable cause => "Cannot print as source: " ++ cause.reason

end FormatError

inductive Format
  | json
  | jsonPretty
  | tag
  | boxTree
  | source
deriving DecidableEq, Repr

namespace Format

def available : List Format := [.json, .jsonPretty, .tag, .boxTree, .source]

def standard : Format := .json

def name : Format → String
  | .json => "json"
  | .jsonPretty => "json-pretty"
  | .tag => "tag"
  | .boxTree => "treeviz"
  | .source => "source"

def description : Format → String
  | .json => "Tagged JSON tree on one line"
  | .jsonPretty => "Tagged JSON tree, indented"
  | .tag => "XML-like tag dump of every node"
  | .boxTree => "Box-drawing tree, one node per line"
  | .source => "Canonical rho source text"

def ofName (name : String) : Except FormatError Format :=
  match available.find? fun format => format.name == name with
  | some format => .ok format
  | none => .error (.notFound name)

/-- The text of a process in a format. Only source text may not exist. -/
def render (format : Format) (process : ProcessTree) : Except FormatError String :=
  match format with
  | .json => .ok process.toJsonText
  | .jsonPretty => .ok process.toPrettyJsonText
  | .tag => .ok process.toTagDump
  | .boxTree => .ok process.toBoxTree
  | .source => process.toSource.mapError .unprintable

end Format

end RhoFrontend
