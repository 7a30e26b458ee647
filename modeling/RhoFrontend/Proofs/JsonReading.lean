import RhoFrontend.Proofs.Json.Nesting
import RhoFrontend.Proofs.Json.NumberRange
import RhoFrontend.Proofs.Json.Reading
import RhoFrontend.Proofs.Json.Reordering
import RhoFrontend.Proofs.Json.Writing

/-!
What is read from strict JSON is what the document denotes, and nothing is read from a document that
denotes no process or has a number that does not stay finite.
-/

namespace RhoFrontend

/-- From a strict text with at most 127 containers around one another a process is read exactly if
its document denotes the process and all its numbers stay finite, provided that tags and types are
strings. All numbers stay finite if none is in the last part in 2 ^ 50 of the double range, and only
if none is further than that beyond it. Whether or not tags and types are strings, a text of the
document with the fields of its objects in another order gives the same result. -/
theorem json_text_denotes {text : String} {document : Json}
    (strict : document.WrittenAs text.toList) (nested : Json.nesting text.toList ≤ 127) :
    (document.StringTagged → ∀ tree, ProcessTree.ofJsonText? text = some tree ↔
      document.Denotes tree ∧ document.NumbersFinite) ∧
    (document.NumbersWithin (2 ^ 50 / (2 ^ 50 + 1) * Json.NumberLiteral.doubleLimit) →
      document.NumbersFinite) ∧
    (document.NumbersFinite →
      document.NumbersWithin ((2 ^ 50 + 1) / 2 ^ 50 * Json.NumberLiteral.doubleLimit)) ∧
    ∀ (other : Json) (otherText : String), document.Reordered other →
      other.WrittenAs otherText.toList →
      ProcessTree.ofJsonText? otherText = ProcessTree.ofJsonText? text := by
  have depth : document.depth ≤ 127 := Json.nesting_of_written strict ▸ nested
  have read {document : Json} {text : String} (strict : document.WrittenAs text.toList)
      (depth : document.depth ≤ 127) (tree : ProcessTree) :
      ProcessTree.ofJsonText? text = some tree ↔
        ProcessTree.ofJson? .outermost document = some tree ∧ document.NumbersFinite := by
    rw [ProcessTree.ofJsonText?, Option.bind_eq_some_iff]
    constructor
    · rintro ⟨_, found, decoded⟩
      obtain ⟨rfl, -, finite⟩ := (Json.of_text_written strict).1 found
      exact ⟨decoded, finite⟩
    · rintro ⟨decoded, finite⟩
      exact ⟨document, (Json.of_text_written strict).2 ⟨rfl, depth, finite⟩, decoded⟩
  refine ⟨?_, Json.numbers_finite_of_within, Json.numbers_within_of_finite, ?_⟩
  · intro words tree
    rw [read strict depth]
    apply and_congr_left
    intro _
    exact ⟨Json.denotes_of_json words, fun denotes => Json.of_json_denotes denotes .outermost⟩
  · intro other otherText reordered otherStrict
    have otherDepth := Json.depth_of_reordered reordered ▸ depth
    have back := Json.reordered_symm reordered
    apply Option.ext
    intro tree
    rw [read strict depth, read otherStrict otherDepth]
    exact and_congr
      ⟨Json.of_json_reordered back, Json.of_json_reordered reordered⟩
      ⟨Json.numbers_finite_of_reordered back, Json.numbers_finite_of_reordered reordered⟩

/-- A send with its fields in any order, an array for its message, and fields that say nothing. -/
def shuffledSend : Json :=
  .object [⟨"x", .decimal "1e-2"⟩, ⟨"message", .array [.string "nil"]⟩, ⟨"x", .null⟩,
    ⟨"chan", .object [⟨"value", .integer 7⟩, ⟨"type", .string "int"⟩, ⟨"tag", .string "ground"⟩]⟩,
    ⟨"tag", .string "send"⟩]

/-- The same document with the fields of each object the other way round. -/
def reversedSend : Json :=
  .object [⟨"tag", .string "send"⟩,
    ⟨"chan", .object [⟨"tag", .string "ground"⟩, ⟨"type", .string "int"⟩, ⟨"value", .integer 7⟩]⟩,
    ⟨"x", .null⟩, ⟨"message", .array [.string "nil"]⟩, ⟨"x", .decimal "1e-2"⟩]

theorem json_text_denotes_shuffled_send :
    String.ofList shuffledSend.compact = "\x7b\"x\":1e-2,\"message\":[\"nil\"],\"x\":null," ++
        "\"chan\":\x7b\"value\":7,\"type\":\"int\",\"tag\":\"ground\"\x7d,\"tag\":\"send\"\x7d" ∧
      shuffledSend.WrittenAs (String.ofList shuffledSend.compact).toList ∧
      Json.nesting (String.ofList shuffledSend.compact).toList ≤ 127 ∧
      shuffledSend.StringTagged ∧ shuffledSend.Reordered reversedSend ∧
      reversedSend.WrittenAs (String.ofList reversedSend.compact).toList ∧
      ProcessTree.ofJsonText? (String.ofList shuffledSend.compact) =
        some (.send (.ground (.int 7)) .nil) ∧
      ProcessTree.ofJsonText? (String.ofList reversedSend.compact) =
        ProcessTree.ofJsonText? (String.ofList shuffledSend.compact) := by
  have literal : Json.NumberLiteral.Spells ⟨false, ['1'], [], some (-2)⟩ "1e-2".toList :=
    Json.NumberLiteral.spells_of_text rfl
  have decimal : Json.Writable (.decimal "1e-2") :=
    .decimal literal (by decide) fun _ isInteger => by cases isInteger.noExponent
  have message : Json.Writable (.array [.string "nil"]) :=
    .array (List.forall_mem_singleton.2 (.string "nil"))
  have channel : ∀ field ∈ ([⟨"value", .integer 7⟩, ⟨"type", .string "int"⟩,
      ⟨"tag", .string "ground"⟩] : List Json.Field), field.value.Writable := by
    simp only [List.forall_mem_cons, List.not_mem_nil, false_implies, implies_true, and_true]
    exact ⟨.integer (by decide), .string _, .string _⟩
  have writable : shuffledSend.Writable := by
    refine .object ?_
    simp only [List.forall_mem_cons, List.not_mem_nil, false_implies, implies_true, and_true]
    exact ⟨decimal, message, .null, .object channel, .string _⟩
  have otherWritable : reversedSend.Writable := by
    refine .object ?_
    simp only [List.forall_mem_cons, List.not_mem_nil, false_implies, implies_true, and_true]
    refine ⟨.string _, .object ?_, .null, message, decimal⟩
    exact fun field member => channel field (List.mem_reverse.1 member)
  have strict : shuffledSend.WrittenAs (String.ofList shuffledSend.compact).toList := by
    rw [String.toList_ofList]
    exact Json.written_as_compact writable
  have otherStrict : reversedSend.WrittenAs (String.ofList reversedSend.compact).toList := by
    rw [String.toList_ofList]
    exact Json.written_as_compact otherWritable
  have nested : Json.nesting (String.ofList shuffledSend.compact).toList ≤ 127 := by
    rw [Json.nesting_of_written strict]
    decide
  have denotes : shuffledSend.Denotes (.send (.ground (.int 7)) .nil) := by
    refine .send ((Json.record_iff (⟨"tag", .string "send"⟩ :: _) (by simp)).1 rfl) ?_ ?_
    · refine .ground ((Json.record_iff (⟨"tag", .string "ground"⟩ :: _) (by simp)).1 rfl) (.int 7)
    · exact .nil .array
  have reordered : shuffledSend.Reordered reversedSend := by
    refine .object (List.reverse_perm _).symm (.cons (.value (.string _)) (.cons (.value ?_)
      (.cons (.value .null) (.cons (.value (.array (.cons (.string _) .nil)))
        (.cons (.value (.decimal _)) .nil)))))
    exact .object (List.reverse_perm _).symm (.cons (.value (.string _))
      (.cons (.value (.string _)) (.cons (.value (.integer 7)) .nil)))
  have words := Json.string_tagged_of_denotes denotes
  have finite := Json.numbers_finite_of_writable writable
  have ⟨reading, _, _, anyOrder⟩ := json_text_denotes strict nested
  exact ⟨rfl, strict, nested, words, reordered, otherStrict, (reading words _).2 ⟨denotes, finite⟩,
    anyOrder reversedSend _ reordered otherStrict⟩

/-- A document of a process, with a number in a field that says nothing. -/
def numberedNil : Json :=
  .object [⟨"tag", .string "nil"⟩, ⟨"x", .decimal "1.797693134862315707e308"⟩]

/-- The literal of that number. -/
def largeLiteral : Json.NumberLiteral :=
  ⟨false, ['1'], "797693134862315707".toList, some 308⟩

theorem large_literal_le : largeLiteral.magnitude ≤ Json.NumberLiteral.largestDouble := by
  have value : largeLiteral.digitsValue = 1797693134862315707 := rfl
  have scale : largeLiteral.scale = (290 : Nat) := rfl
  have below : 1797693134862315707 * 10 ^ 290 ≤ Json.NumberLiteral.largestDouble := by
    decide +kernel
  rw [Json.NumberLiteral.magnitude, value, scale, zpow_natCast]
  exact_mod_cast below

/-- The number is not beyond the largest one that double precision has, but the product of its first
digits and the power of ten is. -/
theorem large_number_hides_process :
    String.ofList numberedNil.compact = "\x7b\"tag\":\"nil\",\"x\":1.797693134862315707e308\x7d" ∧
      numberedNil.WrittenAs (String.ofList numberedNil.compact).toList ∧
      Json.nesting (String.ofList numberedNil.compact).toList ≤ 127 ∧
      numberedNil.NumbersWithin Json.NumberLiteral.largestDouble ∧
      numberedNil.StringTagged ∧ numberedNil.Denotes .nil ∧
      ProcessTree.ofJsonText? (String.ofList numberedNil.compact) = none := by
  have spells : largeLiteral.Spells "1.797693134862315707e308".toList :=
    Json.NumberLiteral.spells_of_text rfl
  have named (content : String) := Json.Token.Spelled.string
    (Json.StringLiteral.spells_encode content.toList)
  have decimal := Json.Token.Spelled.decimal spells fun _ isInteger => by
    cases isInteger.noExponent
  rw [String.ofList_toList] at decimal
  have spelled : ∀ token ∈ numberedNil.tokens, token.Spelled token.spelling := by
    simp only [numberedNil, Json.tokens, Json.laterFields, List.cons_append, List.nil_append,
      List.forall_mem_cons, List.not_mem_nil, false_implies, implies_true, and_true]
    exact ⟨.openBrace, named _, .colon, named _, .comma, named _, .colon, decimal, .closeBrace⟩
  have strict : numberedNil.WrittenAs (String.ofList numberedNil.compact).toList := by
    rw [String.toList_ofList]
    exact Json.Token.spaced_spellings spelled
  have nested : Json.nesting (String.ofList numberedNil.compact).toList ≤ 127 := by
    rw [Json.nesting_of_written strict]
    decide
  have within : numberedNil.NumbersWithin Json.NumberLiteral.largestDouble := by
    intro literal number
    cases number with
    | field member inside =>
        simp only [List.mem_cons, List.not_mem_nil, or_false] at member
        rcases member with rfl | rfl
        · cases inside
        · cases inside with
          | decimal alone =>
              rw [alone.unique spells]
              exact large_literal_le
  have denotes : numberedNil.Denotes .nil :=
    .nil ((Json.record_iff (⟨"tag", .string "nil"⟩ :: []) (by simp)).1 rfl)
  exact ⟨rfl, strict, nested, within, Json.string_tagged_of_denotes denotes, denotes,
    by decide +kernel⟩

end RhoFrontend
