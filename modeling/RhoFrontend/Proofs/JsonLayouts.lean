import RhoFrontend.Proofs.JsonRoundTrip

/-!
The two layouts of a document differ in whitespace only. A text is gone through character by
character to tell what stands inside of string literals. Outside of them every token is solid, and
there is nothing else in the compact text. Inside, the controls below the space are escaped, and
those beyond the visible ASCII characters stand as they are.
-/

namespace RhoFrontend

/-- Unicode's white space. -/
def isWhitespace (char : Char) : Bool :=
  let code := char.toNat
  (0x09 ≤ code && code ≤ 0x0D) || code == 0x20 || code == 0x85 || code == 0xA0 || code == 0x1680 ||
    (0x2000 ≤ code && code ≤ 0x200A) || code == 0x2028 || code == 0x2029 || code == 0x202F ||
      code == 0x205F || code == 0x3000

/-- Unicode's control characters: those below the space, and those from the delete on. -/
def isControl (char : Char) : Bool :=
  let code := char.toNat
  code < 0x20 || (0x7F ≤ code && code ≤ 0x9F)

namespace Json

/-- Where a character of a JSON text stands. The one behind a backslash ends no literal. -/
inductive Standing
  | outside
  | inside
  | escaped
deriving DecidableEq

namespace Standing

def next : Standing → Char → Standing
  | .outside, char => if char = '"' then .inside else .outside
  | .inside, char => if char = '"' then .outside else if char = '\\' then .escaped else .inside
  | .escaped, _ => .inside

/-- Every character of a text with where it stands, when the first one stands here. An opening quote
stands outside of its literal, the closing one inside. -/
def along (here : Standing) : List Char → List (Standing × Char)
  | [] => []
  | char :: rest => (here, char) :: along (here.next char) rest

def behind (here : Standing) (text : List Char) : Standing := text.foldl next here

theorem along_append (here : Standing) (text rest : List Char) :
    here.along (text ++ rest) = here.along text ++ (here.behind text).along rest := by
  induction text generalizing here with
  | nil => rfl
  | cons char text induction =>
      rw [List.cons_append, along, along, induction, List.cons_append]
      rfl

theorem behind_append (here : Standing) (text rest : List Char) :
    here.behind (text ++ rest) = (here.behind text).behind rest :=
  List.foldl_append

theorem along_chars (here : Standing) (text : List Char) :
    (here.along text).map Prod.snd = text := by
  induction text generalizing here with
  | nil => rfl
  | cons char text induction => rw [along, List.map_cons, induction]

end Standing

/-- The text without the whitespace outside of string literals. -/
def withoutLayout (text : List Char) : List Char :=
  ((Standing.outside.along text).filter fun each =>
    !(each.1 == .outside && isWhitespace each.2)).map Prod.snd

/-- What a token may be made of: outside of literals nothing that does not show, and nowhere a
control below the space. -/
structure Allowed (each : Standing × Char) : Prop where
  fromSpace : 0x20 ≤ each.2.toNat
  shows : each.1 = .outside → isWhitespace each.2 = false ∧ isControl each.2 = false

/-- The text leads back to where it began and has nothing in it that is not allowed. -/
structure Solid (here : Standing) (text : List Char) : Prop where
  returns : here.behind text = here
  allowed : ∀ each ∈ here.along text, Allowed each

namespace Solid

variable {here : Standing} {text rest : List Char}

theorem nil (here : Standing) : Solid here [] := ⟨rfl, nofun⟩

theorem append (first : Solid here text) (second : Solid here rest) : Solid here (text ++ rest) := by
  constructor
  · rw [Standing.behind_append, first.returns, second.returns]
  · rw [Standing.along_append, first.returns]
    exact List.forall_mem_append.2 ⟨first.allowed, second.allowed⟩

theorem from_space (solid : Solid here text) : ∀ char ∈ text, 0x20 ≤ char.toNat := by
  intro char member
  rw [← Standing.along_chars here text] at member
  obtain ⟨each, placed, rfl⟩ := List.mem_map.1 member
  exact (solid.allowed each placed).fromSpace

end Solid

/-! Inside of a literal only the quote and the backslash lead away, and an escape leads back. -/

namespace StringLiteral

theorem solid_plain {char : Char} (visible : 0x20 ≤ char.toNat) (notQuote : char ≠ '"')
    (notBackslash : char ≠ '\\') : Solid .inside [char] := by
  constructor
  · simp [Standing.behind, Standing.next, notQuote, notBackslash]
  · exact List.forall_mem_singleton.2 ⟨visible, nofun⟩

theorem solid_letter {letter : Char} (visible : 0x20 ≤ letter.toNat) :
    Solid .inside ['\\', letter] := by
  constructor
  · rfl
  · exact List.forall_mem_cons.2 ⟨⟨by decide, nofun⟩, List.forall_mem_singleton.2 ⟨visible, nofun⟩⟩

theorem solid_hex_digit {value : Nat} {char : Char} (digit : IsHexDigit value char) :
    Solid .inside [char] := by
  have every : ∀ value < 16, [Nat.digitChar value, (Nat.digitChar value).toUpper].all fun char =>
      0x20 ≤ char.toNat ∧ char ≠ '"' ∧ char ≠ '\\' := by decide
  have known := List.all_eq_true.1 (every value digit.1) char (by simpa using digit.2)
  obtain ⟨visible, notQuote, notBackslash⟩ := of_decide_eq_true known
  exact solid_plain visible notQuote notBackslash

theorem solid_code_unit {unit : Nat} {digits : List Char} (code : CodeUnit unit digits) :
    Solid .inside ('\\' :: 'u' :: digits) := by
  obtain ⟨first, second, third, fourth⟩ := code
  have digits := (((solid_hex_digit first).append (solid_hex_digit second)).append
    (solid_hex_digit third)).append (solid_hex_digit fourth)
  exact (solid_letter (by decide)).append digits

theorem solid_spelled {content text : List Char} (spelled : Spells content text) :
    Solid .inside text := by
  induction spelled with
  | nil => exact .nil .inside
  | plain visible notQuote notBackslash _ induction =>
      exact (solid_plain visible notQuote notBackslash).append induction
  | @letter letter char content text known _ induction =>
      have visible : ∀ each ∈ letterEscapes, 0x20 ≤ each.1.toNat := by decide
      exact (solid_letter (visible _ known)).append induction
  | unit code _ induction => exact (solid_code_unit code).append induction
  | pair highCode lowCode _ _ _ _ induction =>
      have both := ((solid_code_unit highCode).append (solid_code_unit lowCode)).append induction
      simpa using both

/-- The opening quote leads inside and the closing one out again. -/
theorem solid_quoted {content text : List Char} (spelled : Spells content text) :
    Solid .outside ('"' :: (text ++ ['"'])) := by
  have body := solid_spelled spelled
  have quote : Allowed (.outside, '"') := ⟨by decide, fun _ => by decide⟩
  constructor
  · have closes : Standing.inside.behind (text ++ ['"']) = .outside := by
      rw [Standing.behind_append, body.returns]
      rfl
    exact closes
  · have closing : Standing.inside.along (text ++ ['"']) =
        Standing.inside.along text ++ [(.inside, '"')] := by
      rw [Standing.along_append, body.returns]
      rfl
    refine List.forall_mem_cons.2 ⟨quote, ?_⟩
    change ∀ each ∈ Standing.inside.along (text ++ ['"']), Allowed each
    rw [closing]
    exact List.forall_mem_append.2
      ⟨body.allowed, List.forall_mem_singleton.2 ⟨by decide, nofun⟩⟩

end StringLiteral

namespace Token

/-- A visible ASCII character that opens no literal. -/
def IsPlain (char : Char) : Prop := 0x20 < char.toNat ∧ char.toNat < 0x7F ∧ char ≠ '"'

instance (char : Char) : Decidable (IsPlain char) := inferInstanceAs (Decidable (_ ∧ _))

theorem IsPlain.allowed {char : Char} (plain : IsPlain char) : Allowed (.outside, char) := by
  have ⟨low, high, _⟩ := plain
  have shows : isWhitespace char = false ∧ isControl char = false := by
    simp only [isWhitespace, isControl, Bool.or_eq_false_iff, Bool.and_eq_false_iff,
      decide_eq_false_iff_not, beq_eq_false_iff_ne]
    omega
  exact ⟨Nat.le_of_lt low, fun _ => shows⟩

theorem solid_of_plain {text : List Char} (plain : ∀ char ∈ text, IsPlain char) :
    Solid .outside text := by
  induction text with
  | nil => exact .nil .outside
  | cons char text induction =>
      have ⟨plainChar, others⟩ := List.forall_mem_cons.1 plain
      have first : Solid .outside [char] := by
        constructor
        · simp [Standing.behind, Standing.next, plainChar.2.2]
        · exact List.forall_mem_singleton.2 plainChar.allowed
      exact first.append (induction others)

theorem solid_of_all_plain {text : List Char} (plain : text.all (IsPlain ·)) :
    Solid .outside text :=
  solid_of_plain fun char member => of_decide_eq_true (List.all_eq_true.1 plain char member)

theorem plain_of_part {char : Char} (part : NumberLiteral.isPart char = true) : IsPlain char := by
  simp only [NumberLiteral.isPart, Bool.or_eq_true, beq_iff_eq, or_assoc] at part
  rcases part with digit | rfl | rfl | rfl | rfl | rfl
  · have range : 48 ≤ char.toNat ∧ char.toNat ≤ 57 := Char.isDigit_iff_toNat.1 digit
    refine ⟨by omega, by omega, ?_⟩
    rintro rfl
    cases digit
  all_goals decide

theorem solid_of_spelled {token : Token} {text : List Char} (spelled : token.Spelled text) :
    Solid .outside text := by
  cases spelled with
  | string spells => exact StringLiteral.solid_quoted spells
  | integer spells | decimal spells =>
      have parts := NumberLiteral.parts_of_spelled spells
      exact solid_of_plain fun char member => plain_of_part (parts char member)
  | _ => exact solid_of_all_plain rfl

end Token

/-! Solid text stays as it is without the layout, and whitespace between tokens goes. -/

theorem without_layout_solid {text : List Char} (solid : Solid .outside text) (rest : List Char) :
    withoutLayout (text ++ rest) = text ++ withoutLayout rest := by
  have kept : ((Standing.outside.along text).filter fun each =>
      !(each.1 == .outside && isWhitespace each.2)) = Standing.outside.along text := by
    rw [List.filter_eq_self]
    rintro ⟨standing, char⟩ member
    have shows := (solid.allowed _ member).shows
    cases standing with
    | outside => simp [(shows rfl).1]
    | inside | escaped => rfl
  rw [withoutLayout, Standing.along_append, solid.returns, List.filter_append, List.map_append, kept,
    Standing.along_chars]
  rfl

theorem without_layout_blank {space : List Char} (blank : Token.Blank space) (rest : List Char) :
    withoutLayout (space ++ rest) = withoutLayout rest := by
  induction space with
  | nil => rfl
  | cons char space induction =>
      have ⟨first, others⟩ := List.forall_mem_cons.1 blank
      have every : [' ', '\t', '\n', '\r'].all fun char => isWhitespace char ∧ char ≠ '"' := by
        decide
      have ⟨white, notQuote⟩ := of_decide_eq_true (List.all_eq_true.1 every char first)
      have stays : Standing.outside.next char = .outside := if_neg notQuote
      rw [← induction others, withoutLayout, List.cons_append, Standing.along, stays]
      simp [white, withoutLayout]

theorem without_layout_indented {tokens : List Token} (depth : Nat)
    (spelled : ∀ token ∈ tokens, token.Spelled token.spelling) :
    withoutLayout (Layout.indented depth tokens) = tokens.flatMap Token.spelling := by
  induction tokens generalizing depth with
  | nil => rfl
  | cons left rest induction =>
      have ⟨first, others⟩ := List.forall_mem_cons.1 spelled
      have solid := Token.solid_of_spelled first
      cases rest with
      | nil =>
          have alone := without_layout_solid solid []
          rwa [List.append_nil] at alone
      | cons right rest =>
          rw [Layout.indented, List.append_assoc, without_layout_solid solid,
            without_layout_blank (Layout.blank_gap _ left right), induction _ others]
          rfl

theorem solid_spellings {tokens : List Token}
    (spelled : ∀ token ∈ tokens, token.Spelled token.spelling) :
    Solid .outside (tokens.flatMap Token.spelling) := by
  induction tokens with
  | nil => exact .nil .outside
  | cons token tokens induction =>
      have ⟨first, others⟩ := List.forall_mem_cons.1 spelled
      exact (Token.solid_of_spelled first).append (induction others)

end Json

theorem spelled_tokens_of_tree (tree : ProcessTree) :
    ∀ token ∈ tree.toJson.tokens, token.Spelled token.spelling :=
  Json.spelled_tokens tree.toJson (Json.writable_to_json tree)

/-- Without the whitespace outside of its string literals the indented text of a tree is the compact
one. That one has no whitespace and no control character outside of string literals, and inside of
them none below the space. -/
theorem json_layouts_differ_in_whitespace (tree : ProcessTree) :
    Json.withoutLayout tree.toPrettyJsonText.toList = tree.toJsonText.toList ∧
      (∀ char, (.outside, char) ∈ Json.Standing.outside.along tree.toJsonText.toList →
        isWhitespace char = false ∧ isControl char = false) ∧
      ∀ char ∈ tree.toJsonText.toList, isControl char = true →
        0x7F ≤ char.toNat ∧ char.toNat ≤ 0x9F := by
  have spelled := spelled_tokens_of_tree tree
  have solid := Json.solid_spellings spelled
  rw [ProcessTree.toPrettyJsonText, ProcessTree.toJsonText, String.toList_ofList,
    String.toList_ofList]
  refine ⟨Json.without_layout_indented 0 spelled, ?_, ?_⟩
  · intro char member
    exact (solid.allowed _ member).shows rfl
  · intro char member control
    have visible := solid.from_space char member
    simp only [isControl, Bool.or_eq_true, Bool.and_eq_true, decide_eq_true_eq] at control
    omega

/-- The delete is a control character, and no escape is written for it. -/
theorem delete_stands_in_json_text :
    ¬ (Json.withoutLayout (ProcessTree.ground (.string "\x7f")).toPrettyJsonText.toList =
          (ProcessTree.ground (.string "\x7f")).toJsonText.toList ∧
        (∀ char, (.outside, char) ∈ Json.Standing.outside.along
            (ProcessTree.ground (.string "\x7f")).toJsonText.toList →
          isWhitespace char = false) ∧
        ∀ char ∈ (ProcessTree.ground (.string "\x7f")).toJsonText.toList,
          isControl char = false) := by
  rintro ⟨-, -, none⟩
  have stands : '\x7f' ∈ (ProcessTree.ground (.string "\x7f")).toJsonText.toList := by
    decide +kernel
  cases none '\x7f' stands

end RhoFrontend
