import Mathlib.Data.List.Basic
import RhoFrontend.Settings.Value

/-!
What is read of a value in which a path was changed. What the path leads to is the change of what
was there, and nothing is different at names that part from the path at a key.
-/

namespace RhoFrontend.Settings

section Fields

variable {Item : Type} {name other : String} {item : Item} {fields : List (String × Item)}

theorem lookup_set_field_self : (setField name item fields).lookup name = some item := by
  induction fields with
  | nil => simp [setField]
  | cons first rest induction =>
      obtain ⟨earlier, kept⟩ := first
      rw [setField]
      split
      · simp
      · next different => simpa [List.lookup_cons, beq_eq_false_iff_ne.2 (Ne.symm different)]

theorem lookup_set_field_of_ne (different : other ≠ name) :
    (setField name item fields).lookup other = fields.lookup other := by
  induction fields with
  | nil => simp [setField, List.lookup_cons, beq_eq_false_iff_ne.2 different]
  | cons first rest induction =>
      obtain ⟨earlier, kept⟩ := first
      rw [setField]
      split
      · next same => simp [List.lookup_cons, same, beq_eq_false_iff_ne.2 different]
      · simp [List.lookup_cons, induction]

end Fields

/-- The path parts from that of some names at a key. -/
inductive Parts : Path → List String → Prop
  | here {left right : String} {path : Path} {names : List String} (different : left ≠ right) :
      Parts (.key left :: path) (right :: names)
  | later {name : String} {path : Path} {names : List String} (parts : Parts path names) :
      Parts (.key name :: path) (name :: names)

namespace Value

def isTable : Value → Bool
  | .table _ => true
  | _ => false

/-- What a list of names leads to, from table to table. -/
def at? : List String → Value → Option Value
  | [], value => some value
  | name :: names, value => (value.field? name).bind (at? names)

variable {name key : String} {names : List String} {path : Path}

@[simp]
theorem field_of_with_field_self (value : Value) (name : String) (field : Value) :
    (value.withField name field).field? name = some field :=
  lookup_set_field_self

theorem field_of_with_field_of_ne {other : String} (different : other ≠ name)
    (value field : Value) : (value.withField name field).field? other = value.field? other :=
  lookup_set_field_of_ne different

theorem at_cons (value : Value) (name : String) (names : List String) :
    value.at? (name :: names) = (value.field? name).bind (at? names) := rfl

theorem at_singleton (value : Value) (name : String) : value.at? [name] = value.field? name :=
  Option.bind_fun_some _

theorem at_pair (value : Value) (outer inner : String) :
    value.at? [outer, inner] = (value.field? outer).bind (field? · inner) := by
  rw [at_cons]
  congr
  funext table
  exact table.at_singleton inner

/-- There are no fields where there is no value, as in an empty table. -/
theorem field_of_get_d (there : Option Value) (name : String) :
    (there.getD (.table [])).field? name = there.bind (field? · name) := by
  cases there <;> rfl

theorem at_alter_of_parts (change : Option Value → Value) (parts : Parts path names)
    (there : Option Value) : (alter change path there).at? names = there.bind (at? names) := by
  induction parts generalizing there with
  | @here left right path names different =>
      rw [alter, at_cons, field_of_with_field_of_ne (Ne.symm different), field_of_get_d]
      cases there <;> rfl
  | @later name path names _ induction =>
      rw [alter, at_cons, field_of_with_field_self, Option.bind_some, induction, field_of_get_d]
      cases there <;> rfl

theorem at_alter_self (change : Option Value → Value) (names : List String)
    (there : Option Value) :
    (alter change (names.map .key) there).at? names = some (change (there.bind (at? names))) := by
  induction names generalizing there with
  | nil => cases there <;> rfl
  | cons name names induction =>
      rw [List.map_cons, alter, at_cons, field_of_with_field_self, Option.bind_some, induction,
        field_of_get_d]
      cases there <;> rfl

theorem at_put_of_parts (parts : Parts path names) (there value : Value) :
    (there.put path value).at? names = there.at? names := by
  rw [put]
  split <;> exact at_alter_of_parts _ parts _

theorem at_put_self (there : Value) (names : List String) (value : Value) :
    (there.put (names.map .key) value).at? names = some (value.laidOver (there.at? names)) := by
  have noItem : ∀ position, (names.map Segment.key).getLast? ≠ some (.item position) := by
    simp [List.getLast?_map]
  rw [put]
  split
  · next position found => exact absurd found (noItem position)
  · exact at_alter_self _ names _

/-! Tables over other values. -/

theorem laid_over_of_plain {value : Value} (plain : value.isTable = false) (there : Option Value) :
    value.laidOver there = value := by
  cases value with
  | table => cases plain
  | _ => rfl

/-- The values that fields have under a name once their names are in lower case. -/
def fieldsNamed (key : String) (fields : List (String × Value)) : List Value :=
  fields.filterMap fun (name, value) => if name.toLower = key then some value else none

/-- The last of the fields with a name counts, if none of them is a table. -/
theorem field_of_fields_over {fields : List (String × Value)}
    (plain : ∀ value ∈ fieldsNamed key fields, value.isTable = false) (there : Value) :
    (fieldsOver fields there).field? key =
      (fieldsNamed key fields).getLast?.or (there.field? key) := by
  induction fields generalizing there with
  | nil => rfl
  | cons first rest induction =>
      obtain ⟨name, value⟩ := first
      rw [fieldsOver]
      by_cases same : name.toLower = key
      · have named : fieldsNamed key ((name, value) :: rest) = value :: fieldsNamed key rest := by
          simp [fieldsNamed, same]
        rw [named] at plain ⊢
        obtain ⟨firstPlain, restPlain⟩ := List.forall_mem_cons.1 plain
        rw [induction restPlain, same, laid_over_of_plain firstPlain, field_of_with_field_self,
          List.getLast?_cons]
        cases (fieldsNamed key rest).getLast? <;> rfl
      · have named : fieldsNamed key ((name, value) :: rest) = fieldsNamed key rest := by
          simp [fieldsNamed, same]
        rw [named] at plain ⊢
        rw [induction plain, field_of_with_field_of_ne (Ne.symm same)]

end Value

end RhoFrontend.Settings
