import RhoFrontend.Format.JsonDecoding
import RhoFrontend.Proofs.Json.Denotation

/-!
Fields found by name are the fields that an object has. Whether a field is found does not depend on
the order of the fields, and its value is then the same up to the order inside.
-/

namespace RhoFrontend.Json

variable {name : String} {fields known others : List Field} {document value : Json}

theorem eta_field (field : Field) : ⟨field.name, field.value⟩ = field := by
  cases field
  rfl

theorem only_eq_some_iff :
    only? name fields = some value ↔
      fields.filter (fun field => field.name == name) = [⟨name, value⟩] := by
  constructor
  · intro found
    unfold only? at found
    split at found
    · next same =>
        cases found
        obtain ⟨field, alone, rfl⟩ := List.map_eq_singleton_iff.1 same
        have member : field ∈ fields.filter (fun field => field.name == name) := by
          rw [alone]
          exact List.mem_singleton_self field
        have named : field.name = name := eq_of_beq (List.mem_filter.1 member).2
        rw [alone, ← named, eta_field]
    · cases found
  · intro alone
    rw [only?, valuesOf, alone]
    rfl

theorem filter_known {field : Field} (distinct : (known.map Field.name).Nodup)
    (member : field ∈ known) :
    known.filter (fun other => other.name == field.name) = [field] := by
  induction known with
  | nil => cases member
  | cons head known induction =>
      have ⟨fresh, others⟩ := List.nodup_cons.1 distinct
      have elsewhere {other : Field} (inside : other ∈ known) : other.name ≠ head.name :=
        fun same => fresh (same ▸ List.mem_map_of_mem inside)
      rcases List.mem_cons.1 member with rfl | inside
      · have noOther : known.filter (fun other => other.name == field.name) = [] :=
          List.filter_eq_nil_iff.2 fun other inside same => elsewhere inside (eq_of_beq same)
        rw [List.filter_cons, beq_self_eq_true, if_pos rfl, noOther]
      · rw [List.filter_cons_of_neg, induction others inside]
        exact fun same => elsewhere inside (eq_of_beq same).symm

/-- A field that an object has is found by its name. -/
theorem only_of_has_fields {field : Field} (distinct : (known.map Field.name).Nodup)
    (has : HasFields fields known) (member : field ∈ known) :
    only? field.name fields = some field.value := by
  obtain ⟨others, perm, unknown⟩ := has
  have noOther : others.filter (fun other => other.name == field.name) = [] :=
    List.filter_eq_nil_iff.2 fun other inside same =>
      unknown other inside field member (eq_of_beq same)
  have found := perm.filter fun other => other.name == field.name
  rw [List.filter_append, filter_known distinct member, noOther, List.append_nil] at found
  rw [only_eq_some_iff, eta_field]
  exact List.perm_singleton.1 found

/-- Leaving out the fields of one name changes nothing about another. -/
theorem only_filter_ne {other : String} (different : other ≠ name) :
    only? other (fields.filter fun field => !(field.name == name)) = only? other fields := by
  have same : ∀ field ∈ fields,
      (field.name == other && !(field.name == name)) = (field.name == other) := by
    intro field _
    by_cases named : field.name = other
    · simp [named, different]
    · simp [named]
  rw [only?, only?, valuesOf, valuesOf, List.filter_filter, List.filter_congr same]

theorem has_fields_of_only (distinct : (known.map Field.name).Nodup)
    (found : ∀ field ∈ known, only? field.name fields = some field.value) :
    HasFields fields known := by
  induction known generalizing fields with
  | nil => exact ⟨fields, List.Perm.refl fields, fun _ _ _ none => by cases none⟩
  | cons head known induction =>
      have ⟨fresh, othersDistinct⟩ := List.nodup_cons.1 distinct
      have ⟨first, later⟩ := List.forall_mem_cons.1 found
      have split := List.filter_append_perm (fun field => field.name == head.name) fields
      rw [only_eq_some_iff.1 first, List.singleton_append, eta_field] at split
      obtain ⟨others, perm, unknown⟩ := induction othersDistinct (fun field member => by
        have different : field.name ≠ head.name :=
          fun same => fresh (same ▸ List.mem_map_of_mem member)
        rw [only_filter_ne different]
        exact later field member)
      refine ⟨others, split.symm.trans (perm.cons head), fun other inside => ?_⟩
      refine List.forall_mem_cons.2 ⟨?_, unknown other inside⟩
      have kept := perm.mem_iff.2 (List.mem_append_right known inside)
      simpa using (List.mem_filter.1 kept).2

theorem has_fields_iff (distinct : (known.map Field.name).Nodup) :
    HasFields fields known ↔ ∀ field ∈ known, only? field.name fields = some field.value :=
  ⟨fun has _ member => only_of_has_fields distinct has member, has_fields_of_only distinct⟩

theorem map_m_only_iff :
    (known.map Field.name).mapM (fun name => only? name fields) = some (known.map Field.value) ↔
      ∀ field ∈ known, only? field.name fields = some field.value := by
  induction known with
  | nil => simp
  | cons field known induction =>
      simp [List.mapM_cons, Option.bind_eq_some_iff, ← induction]

/-- Reading a record finds exactly the values of its fields. -/
theorem record_iff (known : List Field) (distinct : (known.map Field.name).Nodup) :
    document.record? (known.map Field.name) = some (known.map Field.value) ↔
      Record known document := by
  constructor
  · intro read
    unfold record? at read
    split at read
    · exact .object ((has_fields_iff distinct).2 (map_m_only_iff.1 read))
    · split at read
      · cases read
        exact .array
      · cases read
    · cases read
  · rintro (has | _)
    · exact map_m_only_iff.2 ((has_fields_iff distinct).1 has)
    · rw [record?, List.length_map, List.length_map, if_pos rfl]

theorem only_iff : only? name fields = some value ↔ HasFields fields [⟨name, value⟩] := by
  have distinct : (([⟨name, value⟩] : List Field).map Field.name).Nodup := by simp
  rw [has_fields_iff distinct, List.forall_mem_singleton]

theorem tag_iff {tag : Json} : document.tag? = some tag ↔ HasTag tag document := by
  constructor
  · intro found
    unfold tag? at found
    split at found
    · exact .object (only_iff.1 found)
    · cases found
      exact .array
    · cases found
  · rintro (has | _)
    · exact only_iff.2 has
    · rfl

end RhoFrontend.Json
