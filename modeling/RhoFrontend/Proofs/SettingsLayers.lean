import Mathlib
import RhoFrontend.Proofs.Settings.Placements

/-!
Which layer a setting comes from. Each of the two settings has the value of its last override,
wherever that stands among the layers, or else of the last file that sets it, or else the built-in
one. Nothing else in the layers counts, as long as the tables of the two stay tables. All of this
holds for any reader of files, whatever it makes of their contents.
-/

namespace RhoFrontend.Settings

/-- Neither path leads to or through the other. -/
def Separate (left right : Path) : Prop := ¬ left <+: right ∧ ¬ right <+: left

instance (left right : Path) : Decidable (Separate left right) :=
  inferInstanceAs (Decidable (_ ∧ _))

def Segment.isItem : Segment → Bool
  | .key _ => false
  | .item _ => true

/-- The path has a position of a list where the setting has its key. -/
def MakesList (known : Known) (path : Path) : Prop :=
  ∃ step ∈ path, step.isItem = true ∧ [.key known.table, step] <+: path

instance (known : Known) (path : Path) : Decidable (MakesList known path) :=
  inferInstanceAs (Decidable (∃ step ∈ path, _))

namespace Document

/-- A file that leaves the setting alone, except that it may have a table where the table of the
setting is, and give the setting one value that is none. -/
structure Orderly (known : Known) (document : Document) : Prop where
  tables : ∀ placement ∈ document.placed, placement.2.isTable = true →
    placement.1 = [.key known.table] ∨ Separate placement.1 known.path
  values : ∀ placement ∈ document.placed, placement.2.isTable = false →
    placement.1 = known.path ∨ Separate placement.1 known.path
  once : (document.placed.map Prod.fst).count known.path ≤ 1

/-- The value that the file gives the setting. -/
def value? (known : Known) (document : Document) : Option Value :=
  document.placed.findSome? known.valueIn?

end Document

namespace Layer

variable (read : String → Option Document) (known : Known)

/-- What the layer says as a file, if it is one that is there and can be read. -/
def document? : Layer → Option Document
  | .override _ _ => none
  | .file content | .optionalFile content => content.bind read

/-- The layer can be read, and where it is about the setting it gives it a value. -/
def Orderly : Layer → Prop
  | .override key _ =>
      ∃ path, pathOfKey? key = some path ∧ (path = known.path ∨ Separate path known.path)
  | .optionalFile none => True
  | .file content | .optionalFile content =>
      ∃ document ∈ content.bind read, document.Orderly known

/-- The layer puts no list where the table of the setting is, and overrides the setting with no
table. -/
def KeepsShape : Layer → Prop
  | .override key value => ∀ path ∈ pathOfKey? key,
      ¬ MakesList known path ∧ (path = known.path → value.isTable = false)
  | .file content | .optionalFile content => ∀ document ∈ content.bind read,
      ∀ placement ∈ document.placed, ¬ MakesList known placement.1

/-- The value that the layer sets over all files. -/
def overrideValue? : Layer → Option Value
  | .override key value => if pathOfKey? key = some known.path then some value else none
  | .file _ | .optionalFile _ => none

/-- The value that the layer sets as a file. -/
def fileValue? (layer : Layer) : Option Value :=
  (layer.document? read).bind (Document.value? known)

end Layer

variable (read : String → Option Document)

/-- The value of a setting with a given standard: that of its last override, or else of the last
file that sets it, or else the standard. -/
def chosen (known : Known) (standard : Value) (layers : List Layer) : Value :=
  ((layers.filterMap (Layer.overrideValue? known)).getLast?.or
    (layers.filterMap (Layer.fileValue? read known)).getLast?).getD standard

/-- Layers of which each is orderly for both settings. -/
def Orderly (layers : List Layer) : Prop :=
  ∀ known ∈ [strictLineComments, outputFormat], ∀ layer ∈ layers, layer.Orderly read known

theorem split_at_dots_ne_nil (text : List Char) : splitAtDots text ≠ [] := by
  fun_cases splitAtDots text <;> simp [*]

theorem key_of_steps {part : List Char} {path : Path} (read : steps? part = some path) :
    ∃ name items, path = .key name :: items := by
  simp only [steps?] at read
  split at read
  · cases read
  · obtain ⟨items, -, rfl⟩ := Option.map_eq_some_iff.1 read
    exact ⟨_, items, rfl⟩

theorem key_of_path {key : String} {path : Path} (read : pathOfKey? key = some path) :
    ∃ name inner, path = .key name :: inner := by
  obtain ⟨parts, each, rfl⟩ := Option.map_eq_some_iff.1 read
  cases split : splitAtDots key.toList with
  | nil => exact absurd split (split_at_dots_ne_nil _)
  | cons first rest =>
      rw [split, List.mapM_cons] at each
      simp only [Option.bind_eq_bind, Option.bind_eq_some_iff] at each
      obtain ⟨outer, outerRead, inner, -, ⟨⟩⟩ := each
      obtain ⟨name, items, rfl⟩ := key_of_steps outerRead
      exact ⟨name, items ++ inner.flatten, rfl⟩

theorem key_of_path_in_file (name : String) :
    ∃ outer inner, pathInFile name = .key outer :: inner := by
  cases read : pathOfKey? name with
  | none => exact ⟨name.toLower, [], by rw [pathInFile, read]; rfl⟩
  | some path =>
      obtain ⟨outer, inner, rfl⟩ := key_of_path read
      exact ⟨outer, inner, by rw [pathInFile, read]; rfl⟩

theorem key_of_placed {document : Document} {placement : Placement}
    (member : placement ∈ document.placed) :
    ∃ outer inner, placement.1 = .key outer :: inner := by
  obtain ⟨⟨name, value⟩, -, inside⟩ := List.mem_flatMap.1 member
  obtain ⟨outer, inner, path⟩ := key_of_path_in_file name
  obtain ⟨deeper, under⟩ := prefix_of_placed value _ placement inside
  exact ⟨outer, inner ++ deeper, by rw [← under, path, List.cons_append]⟩

variable {known : Known}

/-- A path that is apart from a setting, and makes no list of its table, parts from it at a key. -/
theorem parts_of_separate {path : Path} (starts : ∃ name inner, path = .key name :: inner)
    (separate : Separate path known.path) (noList : ¬ MakesList known path) :
    Parts path [known.table, known.key] := by
  obtain ⟨notOuter, notInner⟩ := separate
  obtain ⟨name, inner, rfl⟩ := starts
  by_cases sameTable : name = known.table
  · subst sameTable
    rcases inner with _ | ⟨second, rest⟩
    · exact absurd ⟨[.key known.key], rfl⟩ notOuter
    · cases second with
      | item position => exact absurd ⟨.item position, by simp, rfl, rest, rfl⟩ noList
      | key other =>
          refine .later (.here ?_)
          rintro rfl
          exact notInner ⟨rest, rfl⟩
  · exact .here sameTable

/-! What a file and an override do to a setting. -/

theorem Document.Orderly.respects {document : Document} (orderly : document.Orderly known)
    (noLists : ∀ placement ∈ document.placed, ¬ MakesList known placement.1) :
    ∀ placement ∈ document.placed, Respects known placement := by
  intro placement member
  have parts (separate : Separate placement.1 known.path) :=
    parts_of_separate (key_of_placed member) separate (noLists placement member)
  have tables := orderly.tables placement member
  have values := orderly.values placement member
  obtain ⟨path, value⟩ := placement
  cases kind : value.isTable with
  | true =>
      rcases tables kind with same | separate
      · cases value with
        | table fields =>
            cases same
            exact .opens fields
        | _ => cases kind
      · exact .passes (parts separate)
  | false =>
      rcases values kind with same | separate
      · cases same
        exact .sets kind
      · exact .passes (parts separate)

/-- Of the one value that an orderly file may give the setting, the last one is the first. -/
theorem Document.Orderly.last {document : Document} (orderly : document.Orderly known) :
    (document.placed.filterMap known.valueIn?).getLast? = document.value? known := by
  have few : (document.placed.filterMap known.valueIn?).length ≤ 1 := by
    have once := orderly.once
    rw [List.count, List.countP_map] at once
    rw [List.length_filterMap_eq_countP]
    refine le_of_eq_of_le (List.countP_congr fun placement _ => ?_) once
    by_cases same : placement.1 = known.path <;> simp [Known.valueIn?, same]
  rw [Document.value?, ← List.head?_filterMap]
  rcases found : document.placed.filterMap known.valueIn? with _ | ⟨first, rest⟩
  · rfl
  · rw [found, List.length_cons] at few
    have alone : rest = [] := List.length_eq_zero_iff.1 (by omega)
    rw [alone]
    rfl

namespace Layer

variable {read : String → Option Document} {layer : Layer}

/-- What the layer puts over all files, if it is an override with a well-formed key. -/
def placement? : Layer → Option Placement
  | .override key value => (pathOfKey? key).map fun path => (path, value)
  | .file _ | .optionalFile _ => none

namespace Orderly

theorem document (orderly : layer.Orderly read known) :
    ∀ document ∈ layer.document? read, document.Orderly known := by
  intro document found
  rcases layer with ⟨key, value⟩ | content | (_ | content)
  · cases found
  · obtain ⟨_, same, fits⟩ := orderly
    cases Option.mem_unique found same
    exact fits
  · cases found
  · obtain ⟨_, same, fits⟩ := orderly
    cases Option.mem_unique found same
    exact fits

theorem put {settings current : Value} (orderly : layer.Orderly read known)
    (keepsShape : layer.KeepsShape read known) (holds : Holds known settings current) :
    ∀ placement ∈ layer.placement?, Holds known (settings.put placement.1 placement.2)
      ((known.valueIn? placement).getD current) := by
  intro placement found
  cases layer with
  | override key value =>
      obtain ⟨path, same, place⟩ := orderly
      rw [placement?, same] at found
      cases found
      obtain ⟨noList, plain⟩ := keepsShape path same
      rcases place with rfl | separate
      · simpa [Known.valueIn?] using Holds.of_put settings (plain rfl)
      · have elsewhere : path ≠ known.path := by
          rintro rfl
          exact separate.1 List.prefix_rfl
        have parts := parts_of_separate (key_of_path same) separate noList
        simpa [Known.valueIn?, elsewhere] using holds.put_of_parts parts value
  | file | optionalFile => cases found

end Orderly

end Layer

/-! All layers. -/

variable {read : String → Option Document} {layers : List Layer}

theorem Holds.value {settings value : Value} (holds : Holds known settings value) :
    known.value? settings = some value := by
  obtain ⟨table, outer, inner⟩ := holds.field
  rw [Known.value?, outer]
  cases table with
  | array items => cases inner
  | _ => exact inner

/-! What two chosen values are converted to. -/

end RhoFrontend.Settings
