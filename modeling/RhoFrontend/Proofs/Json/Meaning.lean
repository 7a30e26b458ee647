import RhoFrontend.Proofs.Json.Decoding

/-!
The decoder gets a process from exactly the documents that denote it, and from a document with its
fields in another order it gets the same.
-/

namespace RhoFrontend.Json

variable {place : Place} {document : Json} {kind : NodeKind} {fields : List Field}

theorem name_of_named {Choice : Type} {name : Choice → String} {choices : List Choice}
    {choice : Choice} {text : String}
    (named : (Json.string text).named? name choices = some choice) : text = name choice := by
  have found : choices.find? (fun choice => name choice == text) = some choice := named
  have same := List.find?_some found
  exact (eq_of_beq same).symm

theorem tag_of_record {names : List String} {tag : Json} {values : List Json}
    (record : document.record? ("tag" :: names) = some (tag :: values)) : HasTag tag document := by
  unfold record? at record
  split at record
  · obtain _ | ⟨found, _⟩ := map_m_eq_some_iff.1 record
    exact .object (only_iff.1 found)
  · split at record
    · cases record
      exact .array
    · cases record
  · cases record

theorem record_of_tagged (distinct : ("tag" :: fields.map Field.name).Nodup) :
    document.record? ("tag" :: fields.map Field.name) =
        some (.string kind.tag :: fields.map Field.value) ↔ Tagged kind fields document :=
  record_iff (⟨"tag", .string kind.tag⟩ :: fields) distinct

theorem tag_of_tagged (distinct : ("tag" :: fields.map Field.name).Nodup)
    (tagged : Tagged kind fields document) : document.tag? = some (.string kind.tag) :=
  tag_iff.2 (tag_of_record ((record_of_tagged distinct).2 tagged))

/-- A tag in words is understood in every place. -/
theorem finds_of_tagged (process : kind ∈ NodeKind.processKinds)
    (distinct : ("tag" :: fields.map Field.name).Nodup) (tagged : Tagged kind fields document) :
    Finds place kind (fields.map Field.name) document (fields.map Field.value) := by
  have every : ∀ kind ∈ NodeKind.processKinds,
      (Json.string kind.tag).named? NodeKind.tag NodeKind.processKinds = some kind := by decide
  refine ⟨?_, _, (record_of_tagged distinct).2 tagged⟩
  rw [NodeKind.ofJson?, tag_of_tagged distinct tagged]
  cases place <;> exact every kind process

/-- Where the tag is in words, what the decoder finds is what the document says. -/
theorem tagged_of_finds (fields : List Field) (distinct : ("tag" :: fields.map Field.name).Nodup)
    (words : ∀ tag, HasTag tag document → ∃ name, tag = .string name)
    (finds : Finds place kind (fields.map Field.name) document (fields.map Field.value)) :
    Tagged kind fields document := by
  obtain ⟨found, tag, record⟩ := finds
  have hasTag := tag_of_record record
  obtain ⟨name, rfl⟩ := words tag hasTag
  have named : name = kind.tag := by
    rw [NodeKind.ofJson?, tag_iff.2 hasTag] at found
    cases place <;> exact name_of_named found
  subst named
  exact (record_of_tagged distinct).1 record

theorem pattern_eq_some_iff {pattern : Pattern} :
    Pattern.ofJson? document = some pattern ↔ DenotesPattern document pattern := by
  have distinct : ["givenName"].Nodup := by decide
  have record (name : Json) : document.record? ["givenName"] = some [name] ↔
      Record [⟨"givenName", name⟩] document := record_iff [⟨"givenName", name⟩] distinct
  rw [Pattern.ofJson?]
  constructor
  · intro read
    split at read
    · next name found =>
        cases read
        exact .name ((record _).1 found)
    · cases read
  · rintro ⟨found⟩
    rw [(record _).2 found]

theorem guarded_iff {first second : Json} :
    document.record? ["pattern", "chan"] = some [first, second] ↔
      Record [⟨"pattern", first⟩, ⟨"chan", second⟩] document :=
  have distinct : ["pattern", "chan"].Nodup := by decide
  record_iff [⟨"pattern", first⟩, ⟨"chan", second⟩] distinct

theorem values_eq_nil_iff {name : String} :
    valuesOf name fields = [] ↔ ∀ field ∈ fields, field.name ≠ name := by
  simp [valuesOf]

theorem values_eq_singleton_iff {name : String} {value : Json} :
    valuesOf name fields = [value] ↔ only? name fields = some value := by
  constructor
  · intro alone
    rw [only?, alone]
  · intro found
    rw [valuesOf, only_eq_some_iff.1 found]
    rfl

theorem declared_iff {name uri : Json} :
    Record [⟨"givenName", name⟩, ⟨"uri", uri⟩] (.object fields) ↔
      only? "givenName" fields = some name ∧ valuesOf "uri" fields = [uri] := by
  have distinct : ["givenName", "uri"].Nodup := by decide
  have found : HasFields fields [⟨"givenName", name⟩, ⟨"uri", uri⟩] ↔ _ := has_fields_iff distinct
  rw [List.forall_mem_cons, List.forall_mem_singleton] at found
  rw [values_eq_singleton_iff, ← found]
  constructor
  · rintro (has | _)
    exact has
  · exact .object

/-- The values under `uri`, of which there is at most one, and the resource that they name. -/
inductive NamesUri : List Json → Option String → Prop
  | absent : NamesUri [] none
  | null : NamesUri [.null] none
  | bound (uri : String) : NamesUri [.string uri] (some uri)

theorem uri_eq_some_iff {values : List Json} {uri : Option String} :
    Declaration.uriOfJson? values = some uri ↔ NamesUri values uri := by
  constructor
  · intro read
    unfold Declaration.uriOfJson? at read
    split at read
    · cases read
      exact .absent
    · cases read
      exact .null
    · cases read
      exact .bound _
    · cases read
  · rintro (_ | _ | _) <;> rfl

theorem declaration_eq_some_iff {declaration : Declaration} :
    Declaration.ofJson? document = some declaration ↔ DenotesDeclaration document declaration := by
  constructor
  · intro read
    unfold Declaration.ofJson? at read
    split at read
    · next fields =>
        generalize under : valuesOf "uri" fields = values at read
        split at read
        · next name uri found uris =>
            cases read
            cases uri_eq_some_iff.1 uris with
            | absent => exact .absent (only_iff.1 found) (values_eq_nil_iff.1 under)
            | null => exact .null (declared_iff.2 ⟨found, under⟩)
            | bound => exact .bound (declared_iff.2 ⟨found, under⟩)
        · cases read
    · next name rest =>
        obtain ⟨uri, uris, rfl⟩ := Option.map_eq_some_iff.1 read
        cases uri_eq_some_iff.1 uris with
        | absent => exact .short
        | null => exact .null .array
        | bound => exact .bound .array
    · cases read
  · intro denotes
    cases denotes with
    | absent has noUri =>
        rw [Declaration.ofJson?, only_iff.2 has, values_eq_nil_iff.2 noUri]
        rfl
    | short => rfl
    | null record | bound record =>
        cases record with
        | object has =>
            have ⟨found, alone⟩ := declared_iff.1 (.object has)
            rw [Declaration.ofJson?, found, alone]
            rfl
        | array => rfl

theorem value_eq_some_iff {type : GroundType} {value : Json} {literal : Ground} :
    Ground.ofValue? type value = some literal ↔
      DenotesGround value literal ∧ literal.type = type := by
  constructor
  · intro read
    unfold Ground.ofValue? at read
    split at read
    · obtain ⟨word, fits, rfl⟩ := Option.map_eq_some_iff.1 read
      rw [← Integer.to_int_of_some fits]
      exact ⟨.int word, rfl⟩
    · cases read
      exact ⟨.string _, rfl⟩
    · cases read
      exact ⟨.bool _, rfl⟩
    · cases read
  · rintro ⟨denotes, rfl⟩
    cases denotes with
    | int word => simp [Ground.ofValue?, Ground.type, Integer.of_int_to_int]
    | string | bool => rfl

/-- The type that a field or item says. -/
def groundType? : Json → Json → Option GroundType
  | .object _ => GroundType.ofField?
  | _ => GroundType.ofItem?

theorem ground_eq_some_iff {literal : Ground} :
    Ground.ofJson? document = some literal ↔
      ∃ tag type value, document.record? ["tag", "type", "value"] = some [tag, type, value] ∧
        groundType? document type = some literal.type ∧ DenotesGround value literal := by
  rw [Ground.ofJson?]
  constructor
  · intro read
    split at read
    · next tag type value record =>
        obtain ⟨said, named, valued⟩ := Option.bind_eq_some_iff.1 read
        obtain ⟨denotes, rfl⟩ := value_eq_some_iff.1 valued
        have typed : groundType? document type = some literal.type := by
          cases document <;> exact named
        exact ⟨tag, type, value, record, typed, denotes⟩
    · cases read
  · rintro ⟨tag, type, value, record, typed, denotes⟩
    rw [record]
    apply Option.bind_eq_some_iff.2
    refine ⟨literal.type, ?_, value_eq_some_iff.2 ⟨denotes, rfl⟩⟩
    cases document <;> exact typed

theorem type_of_string {name : String} :
    groundType? document (.string name) =
      (Json.string name).named? GroundType.name GroundType.all := by
  cases document <;> rfl

theorem named_type (type : GroundType) :
    (Json.string type.name).named? GroundType.name GroundType.all = some type := by
  cases type <;> rfl

/-- A process is found in every document that denotes it. -/
theorem of_json_denotes {tree : ProcessTree} (denotes : Denotes document tree) (place : Place) :
    ProcessTree.ofJson? place document = some tree := by
  induction tree using ProcessTree.subprocess_induction generalizing document place with
  | step tree parts =>
      apply of_json_reads
      cases denotes with
      | nil tagged => exact .nil (finds_of_tagged (by decide) (by simp) tagged)
      | @ground _ value literal tagged denotes =>
          obtain ⟨kind, tag, record⟩ := finds_of_tagged (by decide) (by simp) tagged
          refine .ground kind (ground_eq_some_iff.2 ⟨tag, _, value, record, ?_, denotes⟩)
          rw [type_of_string, named_type]
      | send tagged denotesChannel denotesMessage =>
          have channel := parts _ List.mem_cons_self denotesChannel .nested
          have message := parts _ (List.mem_cons_of_mem _ List.mem_cons_self) denotesMessage .nested
          exact .send (finds_of_tagged (by decide) (by simp) tagged) channel message
      | receive tagged denotesActions denotesBody =>
          have body := parts _ ProcessTree.body_mem_subprocesses denotesBody .nested
          refine .receive (finds_of_tagged (by decide) (by simp) tagged)
            (forall₂_imp_of_mem denotesActions ?_) body
          rintro item _ action member ⟨record, denotesPattern, denotesChannel⟩
          have channel :=
            parts _ (ProcessTree.channel_mem_subprocesses member) denotesChannel .nested
          exact ⟨_, _, guarded_iff.2 record, pattern_eq_some_iff.2 denotesPattern, channel⟩
      | par tagged denotesOperands =>
          refine .par (finds_of_tagged (by decide) (by simp) tagged)
            (forall₂_imp_of_mem denotesOperands ?_)
          exact fun item _ operand member denotes => parts operand member denotes .nested
      | restrict tagged denotesDeclarations denotesBody =>
          have body := parts _ List.mem_cons_self denotesBody .nested
          refine .restrict (finds_of_tagged (by decide) (by simp) tagged)
            (denotesDeclarations.imp fun item declaration => declaration_eq_some_iff.2) body
      | bundle tagged denotesBody =>
          have body := parts _ List.mem_cons_self denotesBody .nested
          exact .bundle (finds_of_tagged (by decide) (by simp) tagged) body

theorem process_at_trans {inner part : Json} (outer : ProcessAt document inner)
    (expected : ProcessAt inner part) : ProcessAt document part := by
  induction expected with
  | outermost => exact outer
  | channel _ tagged above => exact .channel above tagged
  | message _ tagged above => exact .message above tagged
  | guard _ tagged member record above => exact .guard above tagged member record
  | received _ tagged above => exact .received above tagged
  | operand _ tagged member above => exact .operand above tagged member
  | restricted _ tagged above => exact .restricted above tagged
  | bundled _ tagged above => exact .bundled above tagged

theorem string_tagged_part {part : Json} (words : StringTagged document)
    (expected : ProcessAt document part) : StringTagged part where
  tag inside := words.tag (process_at_trans expected inside)
  type inside := words.type (process_at_trans expected inside)

/-- Where tags and types are in words, a document denotes the process that is found in it. -/
theorem denotes_of_json {tree : ProcessTree} (words : StringTagged document)
    (read : ProcessTree.ofJson? place document = some tree) : Denotes document tree := by
  induction tree using ProcessTree.subprocess_induction generalizing document place with
  | step tree parts =>
      have tags : ∀ tag, HasTag tag document → ∃ name, tag = .string name :=
        fun tag => words.tag .outermost
      cases reads_of_json read with
      | nil finds => exact .nil (tagged_of_finds [] (by simp) tags finds)
      | @ground literal kind reads =>
          obtain ⟨tag, type, value, record, typed, denotes⟩ := ground_eq_some_iff.1 reads
          have tagged := tagged_of_finds [⟨"type", type⟩, ⟨"value", value⟩] (by simp) tags
            ⟨kind, tag, record⟩
          obtain ⟨name, rfl⟩ := words.type .outermost tagged
          rw [type_of_string] at typed
          cases name_of_named typed
          exact .ground tagged denotes
      | @send first second _ _ finds readsChannel readsMessage =>
          have tagged := tagged_of_finds [⟨"chan", first⟩, ⟨"message", second⟩] (by simp) tags finds
          have channelWords := string_tagged_part words (.channel .outermost tagged)
          have messageWords := string_tagged_part words (.message .outermost tagged)
          exact .send tagged (parts _ List.mem_cons_self channelWords readsChannel)
            (parts _ (List.mem_cons_of_mem _ List.mem_cons_self) messageWords readsMessage)
      | @receive last items _ _ finds readsActions readsBody =>
          have tagged := tagged_of_finds [⟨"actions", .array items⟩, ⟨"body", last⟩] (by simp) tags
            finds
          have bodyWords := string_tagged_part words (.received .outermost tagged)
          refine .receive tagged (forall₂_imp_of_mem readsActions ?_)
            (parts _ ProcessTree.body_mem_subprocesses bodyWords readsBody)
          rintro item inside ⟨pattern, channel⟩ member ⟨_, _, found, readsPattern, readsChannel⟩
          have record := guarded_iff.1 found
          have channelWords := string_tagged_part words (.guard .outermost tagged inside record)
          exact .guarded record (pattern_eq_some_iff.1 readsPattern)
            (parts _ (ProcessTree.channel_mem_subprocesses member) channelWords readsChannel)
      | @par items _ finds readsOperands =>
          have tagged := tagged_of_finds [⟨"procs", .array items⟩] (by simp) tags finds
          refine .par tagged (forall₂_imp_of_mem readsOperands ?_)
          intro item inside operand member reads
          have operandWords := string_tagged_part words (.operand .outermost tagged inside)
          exact parts operand member operandWords reads
      | @restrict last items _ _ finds readsDeclarations readsBody =>
          have tagged := tagged_of_finds [⟨"vars", .array items⟩, ⟨"body", last⟩] (by simp) tags
            finds
          have bodyWords := string_tagged_part words (.restricted .outermost tagged)
          exact .restrict tagged
            (readsDeclarations.imp fun item declaration => declaration_eq_some_iff.1)
            (parts _ List.mem_cons_self bodyWords readsBody)
      | @bundle last _ finds readsBody =>
          have tagged := tagged_of_finds [⟨"proc", last⟩] (by simp) tags finds
          have bodyWords := string_tagged_part words (.bundled .outermost tagged)
          exact .bundle tagged (parts _ List.mem_cons_self bodyWords readsBody)

theorem tag_of_denotes {tree : ProcessTree} (denotes : Denotes document tree) :
    document.tag? = some (.string tree.kind.tag) := by
  cases denotes <;> next tagged => exact tag_of_tagged (by simp) tagged

/-- A document is tagged as one kind of process only. -/
theorem kind_of_denotes {tree : ProcessTree} (denotes : Denotes document tree)
    (distinct : ("tag" :: fields.map Field.name).Nodup) (tagged : Tagged kind fields document) :
    tree.kind = kind := by
  have injective : ∀ kind other : NodeKind, kind.tag = other.tag → kind = other := by
    intro kind other
    cases kind <;> cases other <;> decide
  apply injective
  have same := (tag_of_denotes denotes).symm.trans (tag_of_tagged distinct tagged)
  exact Json.string.inj (Option.some.inj same)

/-- Fields of the same names have the same values in a document. -/
theorem values_of_record {known others : List Field} (record : Record known document)
    (otherRecord : Record others document) (distinct : (known.map Field.name).Nodup)
    (names : known.map Field.name = others.map Field.name) :
    known.map Field.value = others.map Field.value := by
  have read := (record_iff known distinct).2 record
  rw [names] at read distinct
  exact Option.some.inj (read.symm.trans ((record_iff others distinct).2 otherRecord))

section Inversion

variable {tree : ProcessTree} {first second value type : Json} {items : List Json}

theorem type_of_denotes (denotes : Denotes document tree)
    (tagged : Tagged .ground [⟨"type", type⟩, ⟨"value", value⟩] document) :
    ∃ name, type = .string name := by
  have kind := kind_of_denotes denotes (by simp) tagged
  cases denotes with
  | ground found =>
      cases values_of_record found tagged (by simp) (by simp)
      exact ⟨_, rfl⟩
  | _ => cases kind

theorem send_of_denotes (denotes : Denotes document tree)
    (tagged : Tagged .send [⟨"chan", first⟩, ⟨"message", second⟩] document) :
    (∃ channel, Denotes first channel) ∧ ∃ message, Denotes second message := by
  have kind := kind_of_denotes denotes (by simp) tagged
  cases denotes with
  | send found denotesChannel denotesMessage =>
      cases values_of_record found tagged (by simp) (by simp)
      exact ⟨⟨_, denotesChannel⟩, _, denotesMessage⟩
  | _ => cases kind

theorem receive_of_denotes (denotes : Denotes document tree)
    (tagged : Tagged .receive [⟨"actions", first⟩, ⟨"body", second⟩] document) :
    (∃ items actions, first = .array items ∧ List.Forall₂ DenotesAction items actions) ∧
      ∃ body, Denotes second body := by
  have kind := kind_of_denotes denotes (by simp) tagged
  cases denotes with
  | receive found denotesActions denotesBody =>
      cases values_of_record found tagged (by simp) (by simp)
      exact ⟨⟨_, _, rfl, denotesActions⟩, _, denotesBody⟩
  | _ => cases kind

theorem guard_of_denotes {action : Action} (denotes : DenotesAction document action)
    (record : Record [⟨"pattern", first⟩, ⟨"chan", second⟩] document) :
    Denotes second action.channel := by
  obtain ⟨found, _, denotesChannel⟩ := denotes
  cases values_of_record found record (by simp) (by simp)
  exact denotesChannel

theorem par_of_denotes (denotes : Denotes document tree)
    (tagged : Tagged .par [⟨"procs", .array items⟩] document) :
    ∃ operands, List.Forall₂ Denotes items operands := by
  have kind := kind_of_denotes denotes (by simp) tagged
  cases denotes with
  | par found denotesOperands =>
      cases values_of_record found tagged (by simp) (by simp)
      exact ⟨_, denotesOperands⟩
  | _ => cases kind

theorem restrict_of_denotes (denotes : Denotes document tree)
    (tagged : Tagged .restrict [⟨"vars", first⟩, ⟨"body", second⟩] document) :
    ∃ body, Denotes second body := by
  have kind := kind_of_denotes denotes (by simp) tagged
  cases denotes with
  | restrict found _ denotesBody =>
      cases values_of_record found tagged (by simp) (by simp)
      exact ⟨_, denotesBody⟩
  | _ => cases kind

theorem bundle_of_denotes (denotes : Denotes document tree)
    (tagged : Tagged .bundle [⟨"proc", first⟩] document) : ∃ body, Denotes first body := by
  have kind := kind_of_denotes denotes (by simp) tagged
  cases denotes with
  | bundle found denotesBody =>
      cases values_of_record found tagged (by simp) (by simp)
      exact ⟨_, denotesBody⟩
  | _ => cases kind

end Inversion

/-- In a document that denotes a process every part denotes one that is expected to. -/
theorem denotes_part {tree : ProcessTree} {part : Json} (denotes : Denotes document tree)
    (expected : ProcessAt document part) : ∃ inner, Denotes part inner := by
  induction expected with
  | outermost => exact ⟨tree, denotes⟩
  | channel _ tagged above =>
      obtain ⟨outer, outerDenotes⟩ := above
      exact (send_of_denotes outerDenotes tagged).1
  | message _ tagged above =>
      obtain ⟨outer, outerDenotes⟩ := above
      exact (send_of_denotes outerDenotes tagged).2
  | guard _ tagged member record above =>
      obtain ⟨outer, outerDenotes⟩ := above
      obtain ⟨⟨_, actions, ⟨⟩, each⟩, _⟩ := receive_of_denotes outerDenotes tagged
      obtain ⟨action, -, itemDenotes⟩ := exists_mem_of_forall₂ each member
      exact ⟨action.channel, guard_of_denotes itemDenotes record⟩
  | received _ tagged above =>
      obtain ⟨outer, outerDenotes⟩ := above
      exact (receive_of_denotes outerDenotes tagged).2
  | operand _ tagged member above =>
      obtain ⟨outer, outerDenotes⟩ := above
      obtain ⟨operands, each⟩ := par_of_denotes outerDenotes tagged
      obtain ⟨operand, -, itemDenotes⟩ := exists_mem_of_forall₂ each member
      exact ⟨operand, itemDenotes⟩
  | restricted _ tagged above =>
      obtain ⟨outer, outerDenotes⟩ := above
      exact restrict_of_denotes outerDenotes tagged
  | bundled _ tagged above =>
      obtain ⟨outer, outerDenotes⟩ := above
      exact bundle_of_denotes outerDenotes tagged

/-- A document that denotes a process has its tags and types in words. -/
theorem string_tagged_of_denotes {tree : ProcessTree} (denotes : Denotes document tree) :
    StringTagged document where
  tag expected has := by
    obtain ⟨inner, innerDenotes⟩ := denotes_part denotes expected
    have same := (tag_iff.2 has).symm.trans (tag_of_denotes innerDenotes)
    exact ⟨_, Option.some.inj same⟩
  type expected tagged := by
    obtain ⟨inner, innerDenotes⟩ := denotes_part denotes expected
    exact type_of_denotes innerDenotes tagged

end RhoFrontend.Json
