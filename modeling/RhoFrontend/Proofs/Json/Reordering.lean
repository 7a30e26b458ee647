import Mathlib.Data.List.Perm.Basic
import RhoFrontend.Proofs.Json.Meaning

/-!
The order of fields makes no difference: it can be taken back, it changes no depth, and the decoder
gets the same process.
-/

namespace RhoFrontend.Json

variable {place : Place} {document other : Json}

/-- What holds of a document whenever it holds of its items and fields holds of every document. -/
theorem part_induction {holds : Json → Prop}
    (step : ∀ document : Json,
      (∀ items, document = .array items → ∀ item ∈ items, holds item) →
      (∀ fields, document = .object fields → ∀ field ∈ fields, holds field.value) →
      holds document)
    (document : Json) : holds document := by
  apply step
  · rintro items rfl item member
    have bound := List.sizeOf_lt_of_mem member
    have smaller : sizeOf item < sizeOf (Json.array items) := by
      simp only [array.sizeOf_spec]
      omega
    exact part_induction step item
  · rintro fields rfl ⟨name, value⟩ member
    have bound := List.sizeOf_lt_of_mem member
    have smaller : sizeOf value < sizeOf (Json.object fields) := by
      simp only [Field.mk.sizeOf_spec] at bound
      simp only [object.sizeOf_spec]
      omega
    exact part_induction step value
termination_by sizeOf document

theorem reordered_symm (reordered : Reordered document other) : Reordered other document := by
  induction document using part_induction generalizing other with
  | step document inItems inFields =>
      cases reordered with
      | null => exact .null
      | bool value => exact .bool value
      | integer value => exact .integer value
      | decimal literal => exact .decimal literal
      | string value => exact .string value
      | @array items others each =>
          apply Reordered.array
          apply List.Forall₂.flip
          exact forall₂_imp_of_mem each fun item member _ _ inside =>
            inItems items rfl item member inside
      | @object fields moved others perm each =>
          have back : List.Forall₂ (flip ReorderedField) moved others := by
            refine forall₂_imp_of_mem each ?_
            rintro ⟨_, _⟩ member _ _ ⟨inside⟩
            exact .value (inFields fields rfl _ (perm.mem_iff.2 member) inside)
          obtain ⟨swapped, each, perm⟩ := List.perm_comp_forall₂ perm back
          exact .object perm.symm each.flip

/-- Only the depths count for the depth of a list of fields, and not their order. -/
theorem depth_of_perm {fields moved : List Field} (perm : fields.Perm moved) :
    Field.listDepth fields = Field.listDepth moved := by
  induction perm with
  | nil => rfl
  | cons field _ induction =>
      cases field
      rw [Field.listDepth, Field.listDepth, induction]
  | swap first second rest =>
      cases first
      cases second
      simp only [Field.listDepth]
      omega
  | trans _ _ before after => exact before.trans after

theorem depth_of_items {items others : List Json}
    (each : List.Forall₂ (fun item other => item.depth = other.depth) items others) :
    Json.listDepth items = Json.listDepth others := by
  induction each with
  | nil => rfl
  | cons same _ induction => rw [Json.listDepth, Json.listDepth, same, induction]

theorem depth_of_fields {fields others : List Field}
    (each : List.Forall₂ (fun field other => field.value.depth = other.value.depth) fields others) :
    Field.listDepth fields = Field.listDepth others := by
  induction each with
  | nil => rfl
  | @cons field other _ _ same _ induction =>
      cases field
      cases other
      rw [Field.listDepth, Field.listDepth, induction]
      exact congrArg (max · _) same

theorem depth_of_reordered (reordered : Reordered document other) :
    document.depth = other.depth := by
  induction document using part_induction generalizing other with
  | step document inItems inFields =>
      cases reordered with
      | null | bool | integer | decimal | string => rfl
      | @array items others each =>
          rw [Json.depth, Json.depth, depth_of_items]
          exact forall₂_imp_of_mem each fun item member _ _ inside =>
            inItems items rfl item member inside
      | @object fields moved others perm each =>
          rw [Json.depth, Json.depth, depth_of_perm perm, depth_of_fields]
          refine forall₂_imp_of_mem each ?_
          rintro ⟨_, _⟩ member _ _ ⟨inside⟩
          exact inFields fields rfl _ (perm.mem_iff.2 member) inside

/-- The same numbers stand in the documents. -/
theorem has_number_of_reordered {literal : NumberLiteral} (reordered : Reordered document other)
    (number : document.HasNumber literal) : other.HasNumber literal := by
  induction number generalizing other with
  | integer spells isInteger =>
      cases reordered
      exact .integer spells isInteger
  | decimal spells =>
      cases reordered
      exact .decimal spells
  | item member _ induction =>
      cases reordered with
      | array each =>
          obtain ⟨changed, otherMember, inside⟩ := exists_mem_of_forall₂ each member
          exact .item otherMember (induction inside)
  | field member _ induction =>
      cases reordered with
      | object perm each =>
          obtain ⟨_, otherMember, ⟨inside⟩⟩ := exists_mem_of_forall₂ each (perm.mem_iff.1 member)
          exact .field otherMember (induction inside)

theorem numbers_finite_of_reordered (reordered : Reordered document other)
    (finite : document.NumbersFinite) : other.NumbersFinite :=
  fun literal number => finite literal (has_number_of_reordered (reordered_symm reordered) number)

theorem values_of_each {moved others : List Field} (name : String)
    (each : List.Forall₂ ReorderedField moved others) :
    List.Forall₂ Reordered (valuesOf name moved) (valuesOf name others) := by
  induction each with
  | nil => exact .nil
  | cons first _ induction =>
      obtain ⟨inside⟩ := first
      simp only [valuesOf, List.filter_cons]
      split
      · exact .cons inside induction
      · exact induction

/-- Under a name there are as many values as before, in another order. -/
theorem values_of_reordered {fields moved others : List Field} (name : String)
    (perm : fields.Perm moved) (each : List.Forall₂ ReorderedField moved others) :
    ∃ values, (valuesOf name fields).Perm values ∧
      List.Forall₂ Reordered values (valuesOf name others) :=
  ⟨valuesOf name moved, (perm.filter _).map _, values_of_each name each⟩

theorem only_of_reordered {fields moved others : List Field} {name : String} {value : Json}
    (perm : fields.Perm moved) (each : List.Forall₂ ReorderedField moved others)
    (found : only? name fields = some value) :
    ∃ changed, only? name others = some changed ∧ Reordered value changed := by
  obtain ⟨values, samePerm, changes⟩ := values_of_reordered name perm each
  rw [values_eq_singleton_iff.2 found, List.singleton_perm] at samePerm
  subst samePerm
  obtain ⟨changed, rest, change, none, same⟩ := List.forall₂_cons_left_iff.1 changes
  cases none
  exact ⟨changed, values_eq_singleton_iff.1 same, change⟩

theorem record_of_reordered {names : List String} {values : List Json}
    (reordered : Reordered document other) (record : document.record? names = some values) :
    ∃ changed, other.record? names = some changed ∧ List.Forall₂ Reordered values changed := by
  cases reordered with
  | null | bool | integer | decimal | string => cases record
  | @array items others each =>
      simp only [record?, each.length_eq] at record ⊢
      split at record
      · next same =>
          cases record
          exact ⟨others, if_pos same, each⟩
      · cases record
  | @object fields moved others perm each =>
      simp only [record?, map_m_eq_some_iff] at record ⊢
      induction record with
      | nil => exact ⟨[], .nil, .nil⟩
      | cons found _ induction =>
          obtain ⟨changed, finds, change⟩ := only_of_reordered perm each found
          obtain ⟨rest, others, changes⟩ := induction
          exact ⟨changed :: rest, .cons finds others, .cons change changes⟩

theorem tag_of_reordered {tag : Json} (reordered : Reordered document other)
    (found : document.tag? = some tag) :
    ∃ changed, other.tag? = some changed ∧ Reordered tag changed := by
  cases reordered with
  | null | bool | integer | decimal | string => cases found
  | array each =>
      cases each with
      | nil => cases found
      | cons first _ =>
          cases found
          exact ⟨_, rfl, first⟩
  | object perm each => exact only_of_reordered perm each found

/-- A choice is read from strings and integers only, which have no fields. -/
theorem chosen_of_reordered {Choice : Type} (name : Choice → String) (choices : List Choice)
    (reordered : Reordered document other) :
    document.named? name choices = other.named? name choices ∧
      document.chosen? name choices = other.chosen? name choices := by
  cases reordered <;> exact ⟨rfl, rfl⟩

theorem kind_of_reordered {kind : NodeKind} (reordered : Reordered document other)
    (found : NodeKind.ofJson? place document = some kind) :
    NodeKind.ofJson? place other = some kind := by
  obtain ⟨tag, tagged, chosen⟩ := Option.bind_eq_some_iff.1 found
  obtain ⟨changed, otherTagged, change⟩ := tag_of_reordered reordered tagged
  have ⟨sameName, sameChoice⟩ := chosen_of_reordered NodeKind.tag NodeKind.processKinds change
  rw [NodeKind.ofJson?, otherTagged, Option.bind_some, ← sameName, ← sameChoice]
  exact chosen

theorem finds_of_reordered {kind : NodeKind} {names : List String} {values : List Json}
    (reordered : Reordered document other) (finds : Finds place kind names document values) :
    ∃ changed, Finds place kind names other changed ∧ List.Forall₂ Reordered values changed := by
  obtain ⟨found, tag, record⟩ := finds
  obtain ⟨all, otherRecord, changes⟩ := record_of_reordered reordered record
  obtain ⟨otherTag, changed, _, rest, rfl⟩ := List.forall₂_cons_left_iff.1 changes
  exact ⟨changed, ⟨kind_of_reordered reordered found, otherTag, otherRecord⟩, rest⟩

theorem pattern_of_reordered {pattern : Pattern} (reordered : Reordered document other)
    (read : Pattern.ofJson? document = some pattern) : Pattern.ofJson? other = some pattern := by
  unfold Pattern.ofJson? at read
  split at read
  · next name record =>
      cases read
      obtain ⟨changed, otherRecord, changes⟩ := record_of_reordered reordered record
      obtain _ | ⟨⟨⟩, _ | _⟩ := changes
      rw [Pattern.ofJson?, otherRecord]
  · cases read

theorem names_uri_of_reordered {values others : List Json} {uri : Option String}
    (changes : List.Forall₂ Reordered values others) (names : NamesUri values uri) :
    NamesUri others uri := by
  cases names with
  | absent =>
      cases changes
      exact .absent
  | null | bound =>
      obtain _ | ⟨⟨⟩, _ | _⟩ := changes
      constructor

/-- A resource is named by at most one value, and then the other order is the same one. -/
theorem names_uri_of_perm {values moved : List Json} {uri : Option String}
    (perm : values.Perm moved) (names : NamesUri values uri) : moved = values := by
  cases names with
  | absent => exact List.nil_perm.1 perm
  | null | bound => exact List.perm_singleton.1 perm.symm

theorem declaration_of_reordered {declaration : Declaration} (reordered : Reordered document other)
    (read : Declaration.ofJson? document = some declaration) :
    Declaration.ofJson? other = some declaration := by
  cases reordered with
  | null | bool | integer | decimal | string => cases read
  | array each =>
      unfold Declaration.ofJson? at read
      split at read
      · next same => cases same
      · next same =>
          cases same
          obtain ⟨uri, uris, rfl⟩ := Option.map_eq_some_iff.1 read
          obtain _ | ⟨⟨⟩, rest⟩ := each
          have names := names_uri_of_reordered rest (uri_eq_some_iff.1 uris)
          rw [Declaration.ofJson?, uri_eq_some_iff.2 names]
          rfl
      · cases read
  | object perm each =>
      simp only [Declaration.ofJson?] at read ⊢
      split at read
      · next name uri found uris =>
          cases read
          obtain ⟨_, otherFound, ⟨⟩⟩ := only_of_reordered perm each found
          obtain ⟨values, moved, changes⟩ := values_of_reordered "uri" perm each
          have names := uri_eq_some_iff.1 uris
          cases names_uri_of_perm moved names
          rw [otherFound, uri_eq_some_iff.2 (names_uri_of_reordered changes names)]
      · cases read

theorem reordered_array {items : List Json} (change : Reordered (.array items) other) :
    ∃ others, other = .array others ∧ List.Forall₂ Reordered items others := by
  cases change with
  | array each => exact ⟨_, rfl, each⟩

theorem reordered_single {name : String} {value : Json}
    (change : Reordered (.object [⟨name, value⟩]) other) :
    ∃ changed, other = .object [⟨name, changed⟩] ∧ Reordered value changed := by
  obtain _ | _ | _ | _ | _ | _ | ⟨perm, each⟩ := change
  cases List.perm_singleton.1 perm.symm
  obtain _ | ⟨⟨inside⟩, _ | _⟩ := each
  exact ⟨_, rfl, inside⟩

theorem reordered_empty (change : Reordered (.object []) other) : other = .object [] := by
  obtain _ | _ | _ | _ | _ | _ | ⟨perm, each⟩ := change
  cases List.nil_perm.1 perm
  cases each
  rfl

theorem field_type_of_reordered {choice : GroundType} (change : Reordered document other)
    (found : GroundType.ofField? document = some choice) :
    GroundType.ofField? other = some choice := by
  unfold GroundType.ofField? at found
  split at found
  · obtain ⟨_, rfl, ⟨⟩⟩ := reordered_single change
    exact found
  · obtain ⟨_, rfl, inside⟩ := reordered_single change
    cases reordered_empty inside
    exact found
  · cases change with
    | string => exact found
    | _ => cases found

theorem type_of_reordered {type otherType : Json} {choice : GroundType}
    (reordered : Reordered document other) (change : Reordered type otherType)
    (typed : groundType? document type = some choice) :
    groundType? other otherType = some choice := by
  have sameItem : GroundType.ofItem? type = GroundType.ofItem? otherType :=
    (chosen_of_reordered GroundType.name GroundType.all change).2
  cases reordered with
  | object => exact field_type_of_reordered change typed
  | _ => exact sameItem.symm.trans typed

theorem ground_of_reordered {literal : Ground} (reordered : Reordered document other)
    (read : Ground.ofJson? document = some literal) : Ground.ofJson? other = some literal := by
  obtain ⟨tag, type, value, record, typed, denotes⟩ := ground_eq_some_iff.1 read
  obtain ⟨changed, otherRecord, changes⟩ := record_of_reordered reordered record
  obtain _ | ⟨_, _ | ⟨typeChange, _ | ⟨valueChange, _ | _⟩⟩⟩ := changes
  have otherTyped := type_of_reordered reordered typeChange typed
  refine ground_eq_some_iff.2 ⟨_, _, _, otherRecord, otherTyped, ?_⟩
  cases denotes <;> cases valueChange <;> constructor

theorem forall₂_carry {Left Other Right : Type} {before : Left → Right → Prop}
    {change : Left → Other → Prop} {after : Other → Right → Prop} {lefts : List Left}
    {others : List Other} {rights : List Right} (related : List.Forall₂ before lefts rights)
    (changes : List.Forall₂ change lefts others)
    (carry : ∀ right ∈ rights, ∀ left other, change left other → before left right →
      after other right) : List.Forall₂ after others rights := by
  induction related generalizing others with
  | nil =>
      cases changes
      exact .nil
  | cons first _ induction =>
      obtain _ | ⟨here, changes⟩ := changes
      refine .cons (carry _ List.mem_cons_self _ _ here first) (induction changes ?_)
      exact fun right member => carry right (List.mem_cons_of_mem _ member)

theorem of_json_reordered {tree : ProcessTree} (reordered : Reordered document other)
    (read : ProcessTree.ofJson? place document = some tree) :
    ProcessTree.ofJson? place other = some tree := by
  induction tree using ProcessTree.subprocess_induction generalizing document other place with
  | step tree parts =>
      apply of_json_reads
      cases reads_of_json read with
      | nil finds =>
          obtain ⟨_, otherFinds, ⟨⟩⟩ := finds_of_reordered reordered finds
          exact .nil otherFinds
      | ground kind reads =>
          exact .ground (kind_of_reordered reordered kind) (ground_of_reordered reordered reads)
      | send finds readsChannel readsMessage =>
          obtain ⟨_, otherFinds, _ | ⟨first, _ | ⟨second, _ | _⟩⟩⟩ :=
            finds_of_reordered reordered finds
          exact .send otherFinds (parts _ List.mem_cons_self first readsChannel)
            (parts _ (List.mem_cons_of_mem _ List.mem_cons_self) second readsMessage)
      | receive finds readsActions readsBody =>
          obtain ⟨_, otherFinds, _ | ⟨first, _ | ⟨last, _ | _⟩⟩⟩ :=
            finds_of_reordered reordered finds
          obtain ⟨others, rfl, each⟩ := reordered_array first
          have body := parts _ ProcessTree.body_mem_subprocesses last readsBody
          refine .receive otherFinds (forall₂_carry readsActions each ?_) body
          rintro action member item changed change ⟨_, _, record, pattern, channel⟩
          obtain ⟨_, otherRecord, _ | ⟨firstChange, _ | ⟨secondChange, _ | _⟩⟩⟩ :=
            record_of_reordered change record
          have guard := parts _ (ProcessTree.channel_mem_subprocesses member) secondChange channel
          exact ⟨_, _, otherRecord, pattern_of_reordered firstChange pattern, guard⟩
      | par finds readsOperands =>
          obtain ⟨_, otherFinds, _ | ⟨first, _ | _⟩⟩ := finds_of_reordered reordered finds
          obtain ⟨others, rfl, each⟩ := reordered_array first
          refine .par otherFinds (forall₂_carry readsOperands each ?_)
          exact fun operand member _ _ change read => parts operand member change read
      | restrict finds readsDeclarations readsBody =>
          obtain ⟨_, otherFinds, _ | ⟨first, _ | ⟨last, _ | _⟩⟩⟩ :=
            finds_of_reordered reordered finds
          obtain ⟨others, rfl, each⟩ := reordered_array first
          have body := parts _ List.mem_cons_self last readsBody
          refine .restrict otherFinds (forall₂_carry readsDeclarations each ?_) body
          exact fun _ _ _ _ change read => declaration_of_reordered change read
      | bundle finds readsBody =>
          obtain ⟨_, otherFinds, _ | ⟨last, _ | _⟩⟩ := finds_of_reordered reordered finds
          exact .bundle otherFinds (parts _ List.mem_cons_self last readsBody)

end RhoFrontend.Json
