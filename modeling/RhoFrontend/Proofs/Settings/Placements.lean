import Mathlib.Data.List.Basic
import RhoFrontend.Proofs.Settings.Values
import RhoFrontend.Settings

/-!
All that a layer puts somewhere, with the paths, and what it does to a known setting. The setting
holds the last value put at its path, as long as its table stays one and it does not become one
itself. What is put at other paths changes nothing about it.
-/

namespace RhoFrontend.Settings

/-- A value with the path that it is put at. -/
abbrev Placement := Path × Value

mutual

/-- What is put somewhere by a value at a path: the value, and if it is a table, all that is in it,
under names in lower case. -/
def Value.placedAt : Value → Path → List Placement
  | .table fields, path => (path, .table fields) :: Value.fieldsPlacedAt fields path
  | value, path => [(path, value)]

def Value.fieldsPlacedAt : List (String × Value) → Path → List Placement
  | [], _ => []
  | (name, value) :: rest, path =>
      value.placedAt (path ++ [.key name.toLower]) ++ Value.fieldsPlacedAt rest path

end

/-- All that a file puts somewhere. -/
def Document.placed (document : Document) : List Placement :=
  document.flatMap fun (name, value) => value.placedAt (pathInFile name)

/-- The placement's value if it is one of the setting. -/
def Known.valueIn? (known : Known) (placement : Placement) : Option Value :=
  if placement.1 = known.path then some placement.2 else none

/-- The setting has a value, which is no table but stands in one. -/
structure Holds (known : Known) (settings value : Value) : Prop where
  found : settings.at? [known.table, known.key] = some value
  plain : value.isTable = false

/-- A placement that leaves the table of the setting a table, and the setting none. -/
inductive Respects (known : Known) : Placement → Prop
  | sets {value : Value} (plain : value.isTable = false) : Respects known (known.path, value)
  | opens (fields : List (String × Value)) : Respects known ([.key known.table], .table fields)
  | passes {path : Path} {value : Value} (parts : Parts path [known.table, known.key]) :
      Respects known (path, value)

/-! Where the values in a table are placed. -/

theorem placed_of_plain {value : Value} (plain : value.isTable = false) (path : Path) :
    value.placedAt path = [(path, value)] := by
  cases value with
  | table => cases plain
  | _ => rfl

theorem self_mem_placed (value : Value) (path : Path) : (path, value) ∈ value.placedAt path := by
  cases value <;> simp [Value.placedAt]

mutual

theorem prefix_of_placed (value : Value) (path : Path) :
    ∀ placement ∈ value.placedAt path, path <+: placement.1 := by
  cases value with
  | table fields =>
      rw [Value.placedAt, List.forall_mem_cons]
      exact ⟨List.prefix_rfl, prefix_of_fields_placed fields path⟩
  | _ =>
      rw [placed_of_plain rfl]
      exact List.forall_mem_singleton.2 List.prefix_rfl

theorem prefix_of_fields_placed (fields : List (String × Value)) (path : Path) :
    ∀ placement ∈ Value.fieldsPlacedAt fields path, path <+: placement.1 := by
  match fields with
  | [] => exact List.forall_mem_nil _
  | (name, value) :: rest =>
      rw [Value.fieldsPlacedAt, List.forall_mem_append]
      constructor
      · intro placement member
        exact (List.prefix_append path _).trans (prefix_of_placed value _ placement member)
      · exact prefix_of_fields_placed rest path

end

variable {known : Known} {settings current value : Value} {path : Path}

theorem not_prefix_of_parts (parts : Parts path [known.table, known.key]) :
    ¬ path <+: known.path := by
  cases parts with
  | here different => simp [Known.path, different]
  | later parts =>
      cases parts with
      | here different => simp [Known.path, different]
      | later parts => cases parts

/-- Nothing in a value is the setting if the path of the value does not lead to it. -/
theorem values_of_apart (apart : ¬ path <+: known.path) (value : Value) :
    (value.placedAt path).filterMap known.valueIn? = [] := by
  rw [List.filterMap_eq_nil_iff]
  intro placement member
  have under := prefix_of_placed value path placement member
  rw [Known.valueIn?, if_neg]
  intro here
  exact apart (here ▸ under)

/-- A setting is no table where it is respected. -/
theorem Respects.plain (respects : Respects known (known.path, value)) : value.isTable = false := by
  generalize there : (known.path, value) = placement at respects
  cases respects with
  | sets plain =>
      cases there
      exact plain
  | opens => cases there
  | passes parts =>
      cases there
      exact absurd List.prefix_rfl (not_prefix_of_parts parts)

/-- Of what is in the outermost table of the setting, the values of the setting are those under its
key. -/
theorem values_of_fields {fields : List (String × Value)}
    (respect : ∀ placement ∈ Value.fieldsPlacedAt fields [.key known.table],
      Respects known placement) :
    (Value.fieldsPlacedAt fields [.key known.table]).filterMap known.valueIn? =
        Value.fieldsNamed known.key fields ∧
      ∀ value ∈ Value.fieldsNamed known.key fields, value.isTable = false := by
  induction fields with
  | nil => exact ⟨rfl, List.forall_mem_nil _⟩
  | cons first rest induction =>
      obtain ⟨name, value⟩ := first
      rw [Value.fieldsPlacedAt, List.forall_mem_append] at respect
      obtain ⟨values, plain⟩ := induction respect.2
      rw [Value.fieldsPlacedAt, List.filterMap_append, values]
      by_cases same : name.toLower = known.key
      · have path : [.key known.table] ++ [.key name.toLower] = known.path := by
          rw [same]
          rfl
        have named : Value.fieldsNamed known.key ((name, value) :: rest) =
            value :: Value.fieldsNamed known.key rest := by
          simp [Value.fieldsNamed, same]
        rw [path] at respect
        have firstPlain := (respect.1 _ (self_mem_placed value _)).plain
        rw [path, placed_of_plain firstPlain, named, List.forall_mem_cons]
        exact ⟨by simp [Known.valueIn?], firstPlain, plain⟩
      · have named : Value.fieldsNamed known.key ((name, value) :: rest) =
            Value.fieldsNamed known.key rest := by
          simp [Value.fieldsNamed, same]
        have apart : ¬ [.key known.table] ++ [.key name.toLower] <+: known.path := by
          simpa [Known.path] using same
        rw [values_of_apart apart, named]
        exact ⟨rfl, plain⟩

/-! What putting values at paths does to a setting. -/

namespace Holds

theorem put_of_parts (holds : Holds known settings current)
    (parts : Parts path [known.table, known.key]) (value : Value) :
    Holds known (settings.put path value) current where
  found := (Value.at_put_of_parts parts settings value).trans holds.found
  plain := holds.plain

theorem of_put (settings : Value) (plain : value.isTable = false) :
    Holds known (settings.put known.path value) value where
  found := by
    have set := settings.at_put_self [known.table, known.key] value
    rwa [Value.laid_over_of_plain plain] at set
  plain := plain

theorem field (holds : Holds known settings current) :
    ∃ table, settings.field? known.table = some table ∧
      table.field? known.key = some current := by
  have found := holds.found
  rwa [Value.at_pair, Option.bind_eq_some_iff] at found

theorem put_table (holds : Holds known settings current) {fields : List (String × Value)}
    (plain : ∀ value ∈ Value.fieldsNamed known.key fields, value.isTable = false) :
    Holds known (settings.put [.key known.table] (.table fields))
      ((Value.fieldsNamed known.key fields).getLast?.getD current) := by
  obtain ⟨table, there, inside⟩ := holds.field
  have put := settings.at_put_self [known.table] (.table fields)
  rw [Value.at_singleton, Value.at_singleton, there, Value.laidOver, Option.getD_some] at put
  have joined : (settings.put [.key known.table] (.table fields)).at? [known.table, known.key] =
      (Value.fieldsOver fields table).field? known.key := by
    rw [Value.at_pair]
    exact congrArg (Option.bind · _) put
  have field := Value.field_of_fields_over plain table
  rw [inside] at field
  cases last : (Value.fieldsNamed known.key fields).getLast? with
  | none =>
      rw [last] at field
      exact ⟨joined.trans field, holds.plain⟩
  | some value =>
      rw [last] at field
      exact ⟨joined.trans field, plain value (List.mem_of_getLast? last)⟩

/-- What one value does to the setting, with all that is in it. -/
theorem put (holds : Holds known settings current)
    (respect : ∀ placement ∈ value.placedAt path, Respects known placement) :
    Holds known (settings.put path value)
      (((value.placedAt path).filterMap known.valueIn?).getLast?.getD current) := by
  have here := respect _ (self_mem_placed value path)
  generalize there : (path, value) = placement at here
  cases here with
  | sets plain =>
      cases there
      rw [placed_of_plain plain]
      simpa [Known.valueIn?] using Holds.of_put settings plain
  | opens fields =>
      cases there
      rw [Value.placedAt, List.forall_mem_cons] at respect
      obtain ⟨values, plain⟩ := values_of_fields respect.2
      have opened : known.valueIn? ([.key known.table], .table fields) = none := by
        simp [Known.valueIn?, Known.path]
      rw [Value.placedAt, List.filterMap_cons, opened, values]
      exact holds.put_table plain
  | passes parts =>
      cases there
      rw [values_of_apart (not_prefix_of_parts parts)]
      exact holds.put_of_parts parts value

end Holds

end RhoFrontend.Settings
