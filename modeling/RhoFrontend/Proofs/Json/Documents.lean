import RhoFrontend.Proofs.Json.Lexing

/-!
The tokens of a document, read back. The reader of documents gets a document from its tokens unless
it has more containers around one another than the reader can have open at once.
-/

namespace RhoFrontend.Json

theorem closes_later_items (items : List Json) (rest : List Token) :
    ∀ next ∈ (Json.laterItems items ++ rest).head?, next.Closes := by
  cases items <;> rintro next ⟨⟩ <;> trivial

theorem closes_later_fields (fields : List Field) (rest : List Token) :
    ∀ next ∈ (Json.laterFields fields ++ rest).head?, next.Closes := by
  match fields with
  | [] | ⟨name, value⟩ :: _ =>
      rintro next ⟨⟩
      trivial

mutual

/-- In a document a number is followed by the end of its container or by another item or field. -/
theorem apart_tokens (document : Json) {rest : List Token} (apart : Token.Apart rest)
    (closes : ∀ next ∈ rest.head?, next.Closes) : Token.Apart (document.tokens ++ rest) := by
  cases document with
  | null | bool | string => exact ⟨nofun, apart⟩
  | integer | decimal => exact ⟨fun _ => closes, apart⟩
  | array items =>
      cases items with
      | nil => exact ⟨nofun, nofun, apart⟩
      | cons item items =>
          simp only [Json.tokens, List.cons_append, List.append_assoc]
          exact ⟨nofun, apart_tokens item (apart_later_items items apart)
            (closes_later_items items rest)⟩
  | object fields =>
      match fields with
      | [] => exact ⟨nofun, nofun, apart⟩
      | ⟨name, value⟩ :: fields =>
          simp only [Json.tokens, List.cons_append, List.append_assoc]
          exact ⟨nofun, nofun, nofun, apart_tokens value (apart_later_fields fields apart)
            (closes_later_fields fields rest)⟩

theorem apart_later_items (items : List Json) {rest : List Token} (apart : Token.Apart rest) :
    Token.Apart (Json.laterItems items ++ rest) := by
  cases items with
  | nil => exact ⟨nofun, apart⟩
  | cons item items =>
      simp only [Json.laterItems, List.cons_append, List.append_assoc]
      exact ⟨nofun, apart_tokens item (apart_later_items items apart)
        (closes_later_items items rest)⟩

theorem apart_later_fields (fields : List Field) {rest : List Token} (apart : Token.Apart rest) :
    Token.Apart (Json.laterFields fields ++ rest) := by
  match fields with
  | [] => exact ⟨nofun, apart⟩
  | ⟨name, value⟩ :: fields =>
      simp only [Json.laterFields, List.cons_append, List.append_assoc]
      exact ⟨nofun, nofun, nofun, apart_tokens value (apart_later_fields fields apart)
        (closes_later_fields fields rest)⟩

end

theorem apart_document (document : Json) : Token.Apart document.tokens := by
  have apart : Token.Apart (document.tokens ++ []) := apart_tokens document trivial nofun
  rwa [List.append_nil] at apart

theorem numbers_finite_array {items : List Json} :
    (Json.array items).NumbersFinite ↔ ∀ item ∈ items, item.NumbersFinite := by
  constructor
  · intro finite item member literal number
    exact finite literal (.item member number)
  · intro each literal number
    cases number with
    | item member inside => exact each _ member literal inside

theorem numbers_finite_object {fields : List Field} :
    (Json.object fields).NumbersFinite ↔ ∀ field ∈ fields, field.value.NumbersFinite := by
  constructor
  · intro finite field member literal number
    exact finite literal (.field member number)
  · intro each literal number
    cases number with
    | field member inside => exact each _ member literal inside

mutual

/-- The numbers of a document are those among its tokens. -/
theorem tokens_stay_finite_iff (document : Json) :
    (∀ token ∈ document.tokens, token.StaysFinite) ↔ document.NumbersFinite := by
  match document with
  | .null | .bool _ | .string _ =>
      rw [Json.tokens, List.forall_mem_singleton]
      constructor
      · intro _ literal number
        cases number
      · exact fun _ => trivial
  | .integer value =>
      rw [Json.tokens, List.forall_mem_singleton]
      constructor
      · intro finite literal number
        cases number with
        | integer spells isInteger => exact finite literal _ spells isInteger
      · exact fun finite literal text spells isInteger => finite literal (.integer spells isInteger)
  | .decimal text =>
      rw [Json.tokens, List.forall_mem_singleton]
      constructor
      · intro finite literal number
        cases number with
        | decimal spells => exact finite literal spells
      · exact fun finite literal spells => finite literal (.decimal spells)
  | .array [] => simp [Json.tokens, Token.StaysFinite, numbers_finite_array]
  | .array (item :: items) =>
      rw [Json.tokens, List.forall_mem_cons, List.forall_mem_append, tokens_stay_finite_iff item,
        later_items_stay_finite_iff items, numbers_finite_array, List.forall_mem_cons]
      exact and_iff_right trivial
  | .object [] => simp [Json.tokens, Token.StaysFinite, numbers_finite_object]
  | .object (⟨name, value⟩ :: fields) =>
      rw [Json.tokens, List.forall_mem_cons, List.forall_mem_cons, List.forall_mem_cons,
        List.forall_mem_append, tokens_stay_finite_iff value, later_fields_stay_finite_iff fields,
        numbers_finite_object, List.forall_mem_cons]
      simp only [Token.StaysFinite, true_and]

theorem later_items_stay_finite_iff (items : List Json) :
    (∀ token ∈ Json.laterItems items, token.StaysFinite) ↔
      ∀ item ∈ items, item.NumbersFinite := by
  match items with
  | [] => simp [Json.laterItems, Token.StaysFinite]
  | item :: items =>
      rw [Json.laterItems, List.forall_mem_cons, List.forall_mem_append,
        tokens_stay_finite_iff item, later_items_stay_finite_iff items, List.forall_mem_cons]
      exact and_iff_right trivial

theorem later_fields_stay_finite_iff (fields : List Field) :
    (∀ token ∈ Json.laterFields fields, token.StaysFinite) ↔
      ∀ field ∈ fields, field.value.NumbersFinite := by
  match fields with
  | [] => simp [Json.laterFields, Token.StaysFinite]
  | ⟨name, value⟩ :: fields =>
      rw [Json.laterFields, List.forall_mem_cons, List.forall_mem_cons, List.forall_mem_cons,
        List.forall_mem_append, tokens_stay_finite_iff value, later_fields_stay_finite_iff fields,
        List.forall_mem_cons]
      simp only [Token.StaysFinite, true_and]

end

namespace Reading

variable {containers : List Container} {rest : List Token}

/-- What is left to read behind a value that fits under the open containers. -/
def readBehind (containers : List Container) (depth : Nat) (value : Json) (rest : List Token) :
    Option Json :=
  if containers.length + depth ≤ depthLimit then readFrom ⟨containers, .afterValue value⟩ rest
  else none

theorem read_open_bracket :
    readFrom ⟨containers, .value⟩ (.openBracket :: rest) =
      if containers.length < depthLimit then
        readFrom ⟨.array [] :: containers, .firstItem⟩ rest
      else none := by
  rw [readFrom]
  simp only [State.step, State.startValue]
  by_cases room : containers.length < depthLimit
  · rw [if_pos room, if_pos room]
  · rw [if_neg room, if_neg room]

theorem read_open_brace :
    readFrom ⟨containers, .value⟩ (.openBrace :: rest) =
      if containers.length < depthLimit then readFrom ⟨containers, .firstName⟩ rest else none := by
  rw [readFrom]
  simp only [State.step, State.startValue]
  by_cases room : containers.length < depthLimit
  · rw [if_pos room, if_pos room]
  · rw [if_neg room, if_neg room]

/-- A first item is read as any other value, since no value starts with a closing bracket. -/
theorem read_first_item (item : Json) :
    readFrom ⟨containers, .firstItem⟩ (item.tokens ++ rest) =
      readFrom ⟨containers, .value⟩ (item.tokens ++ rest) := by
  match item with
  | .null | .bool _ | .integer _ | .decimal _ | .string _ => rfl
  | .array [] | .array (_ :: _) | .object [] | .object (⟨_, _⟩ :: _) => rfl

/-- A container fits if its first part and the others do. -/
theorem read_behind_part {container : Container} {first others : Nat} {part whole : Json}
    {after : List Token}
    (onward : readFrom ⟨container :: containers, .afterValue part⟩ after =
      readBehind containers (1 + others) whole rest) :
    readBehind (container :: containers) first part after =
      readBehind containers (1 + max first others) whole rest := by
  rw [readBehind, onward, readBehind, readBehind, List.length_cons]
  grind

mutual

/-- The document is added to the containers around it, if they leave room for its own. -/
theorem read_value (document : Json) (containers : List Container) (rest : List Token)
    (room : containers.length ≤ depthLimit) :
    readFrom ⟨containers, .value⟩ (document.tokens ++ rest) =
      readBehind containers document.depth document rest := by
  match document with
  | .null | .bool _ | .integer _ | .decimal _ | .string _ =>
      rw [readBehind, Json.depth, if_pos (by omega)]
      rfl
  | .array items =>
      by_cases inner : containers.length < depthLimit
      · match items with
        | [] =>
            rw [readBehind, Json.depth, Json.listDepth, if_pos (by omega)]
            simp only [Json.tokens, List.cons_append, read_open_bracket, if_pos inner]
            rfl
        | item :: items =>
            simp only [Json.tokens, List.cons_append, List.append_assoc]
            rw [read_open_bracket, if_pos inner, read_first_item, read_value item _ _ (by simpa),
              Json.depth, Json.listDepth]
            exact read_behind_part (read_later_items items [] item containers rest inner)
      · rw [readBehind, Json.depth, if_neg (by omega)]
        cases items <;> simp only [Json.tokens, List.cons_append, read_open_bracket, if_neg inner]
  | .object fields =>
      by_cases inner : containers.length < depthLimit
      · match fields with
        | [] =>
            rw [readBehind, Json.depth, Field.listDepth, if_pos (by omega)]
            simp only [Json.tokens, List.cons_append, read_open_brace, if_pos inner]
            rfl
        | ⟨name, value⟩ :: fields =>
            simp only [Json.tokens, List.cons_append, List.append_assoc]
            rw [read_open_brace, if_pos inner, Json.depth, Field.listDepth]
            apply (read_value value (.object [] name :: containers) _ (by simpa)).trans
            exact read_behind_part (read_later_fields fields [] name value containers rest inner)
      · rw [readBehind, Json.depth, if_neg (by omega)]
        match fields with
        | [] | ⟨_, _⟩ :: _ =>
            simp only [Json.tokens, List.cons_append, read_open_brace, if_neg inner]

theorem read_later_items (items earlier : List Json) (last : Json) (containers : List Container)
    (rest : List Token) (room : containers.length < depthLimit) :
    readFrom ⟨.array earlier :: containers, .afterValue last⟩ (Json.laterItems items ++ rest) =
      readBehind containers (1 + Json.listDepth items)
        (.array (earlier.reverse ++ last :: items)) rest := by
  match items with
  | [] =>
      rw [readBehind, Json.listDepth, if_pos (by omega), ← List.reverse_cons]
      rfl
  | item :: items =>
      have shape : earlier.reverse ++ last :: item :: items =
          (last :: earlier).reverse ++ item :: items := by simp
      simp only [Json.laterItems, List.cons_append, List.append_assoc]
      rw [Json.listDepth, shape]
      apply (read_value item (.array (last :: earlier) :: containers) _ (by simpa)).trans
      exact read_behind_part
        (read_later_items items (last :: earlier) item containers rest room)

theorem read_later_fields (fields earlier : List Field) (name : String) (last : Json)
    (containers : List Container) (rest : List Token) (room : containers.length < depthLimit) :
    readFrom ⟨.object earlier name :: containers, .afterValue last⟩
        (Json.laterFields fields ++ rest) =
      readBehind containers (1 + Field.listDepth fields)
        (.object (earlier.reverse ++ ⟨name, last⟩ :: fields)) rest := by
  match fields with
  | [] =>
      rw [readBehind, Field.listDepth, if_pos (by omega), ← List.reverse_cons]
      rfl
  | ⟨next, value⟩ :: fields =>
      have shape : earlier.reverse ++ ⟨name, last⟩ :: ⟨next, value⟩ :: fields =
          (⟨name, last⟩ :: earlier).reverse ++ ⟨next, value⟩ :: fields := by simp
      simp only [Json.laterFields, List.cons_append, List.append_assoc]
      rw [Field.listDepth, shape]
      apply (read_value value (.object (⟨name, last⟩ :: earlier) next :: containers) _
        (by simpa)).trans
      exact read_behind_part
        (read_later_fields fields (⟨name, last⟩ :: earlier) next value containers rest room)

end

end Reading

/-- The reader finds the document of a strict text unless one of its numbers does not stay finite or
it has too many containers around one another. -/
theorem of_text_written {document other : Json} {text : List Char}
    (written : document.WrittenAs text) : Json.ofText? text = some other ↔
      other = document ∧ document.depth ≤ 127 ∧ document.NumbersFinite := by
  have read := Reading.read_value document [] [] (by decide)
  rw [List.append_nil, Reading.readBehind, List.length_nil, Nat.zero_add] at read
  rw [Json.ofText?, Option.bind_eq_some_iff, ← tokens_stay_finite_iff]
  constructor
  · rintro ⟨tokens, lexed, found⟩
    obtain ⟨rfl, finite⟩ := (Token.of_text_spaced written (apart_document document)).1 lexed
    rw [Reading.State.start, read] at found
    split at found
    · next nested =>
        cases found
        exact ⟨rfl, nested, finite⟩
    · cases found
  · rintro ⟨rfl, nested, finite⟩
    refine ⟨other.tokens, (Token.of_text_spaced written (apart_document other)).2 ⟨rfl, finite⟩, ?_⟩
    have fits : other.depth ≤ Reading.depthLimit := nested
    rw [Reading.State.start, read, if_pos fits]
    rfl

end RhoFrontend.Json
