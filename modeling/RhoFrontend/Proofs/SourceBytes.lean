import Mathlib.Data.List.Basic
import RhoFrontend.Source.Position

/-!
The bytes of a source. A newline is one byte, and that byte is part of no other character, so line
ends can be told from the bytes alone: the table of line starts has the offset zero and the one
behind each newline byte. Offsets inside a character need no case of their own then.
-/

namespace RhoFrontend

/-- The UTF-8 form of a text. -/
def utf8Bytes (text : List Char) : List UInt8 := text.flatMap String.utf8EncodeChar

def newlineByte : UInt8 := 10

def returnByte : UInt8 := 13

@[simp] theorem utf8_bytes_nil : utf8Bytes [] = [] := rfl

@[simp] theorem utf8_bytes_cons (first : Char) (rest : List Char) :
    utf8Bytes (first :: rest) = String.utf8EncodeChar first ++ utf8Bytes rest :=
  List.flatMap_cons

@[simp] theorem utf8_bytes_append (left right : List Char) :
    utf8Bytes (left ++ right) = utf8Bytes left ++ utf8Bytes right :=
  List.flatMap_append

@[simp] theorem length_utf8_bytes (text : List Char) :
    (utf8Bytes text).length = byteLength text := by
  induction text with
  | nil => rfl
  | cons first rest induction =>
      rw [utf8_bytes_cons, List.length_append, String.length_utf8EncodeChar, induction,
        byte_length_cons]

theorem newline_bytes (rest : List Char) :
    utf8Bytes ('\n' :: rest) = newlineByte :: utf8Bytes rest := rfl

theorem return_bytes (rest : List Char) :
    utf8Bytes ('\r' :: rest) = returnByte :: utf8Bytes rest := rfl

/-- Every byte of a longer character has its highest bit set. -/
theorem newline_mem_encoded_iff (char : Char) :
    newlineByte ∈ String.utf8EncodeChar char ↔ char = '\n' := by
  have high (part : Nat) (large : 0x80 ≤ part) (fits : part < 0x100) :
      newlineByte ≠ UInt8.ofNat part := by
    intro same
    have value := congrArg UInt8.toNat same
    rw [UInt8.toNat_ofNat_of_lt' fits] at value
    have ten : newlineByte.toNat = 10 := rfl
    omega
  have code (long : ¬ char.val.toNat ≤ 0x7f) : char ≠ '\n' := by
    rintro rfl
    exact long (by decide)
  fun_cases String.utf8EncodeChar char with
  | case1 value short =>
      rw [List.mem_singleton]
      constructor
      · intro same
        have number := congrArg UInt8.toNat same
        rw [UInt8.toNat_ofNat_of_lt' (Nat.lt_of_le_of_lt short (by decide))] at number
        exact Char.ext (UInt32.toNat_inj.1 number.symm)
      · rintro rfl
        rfl
  | case2 value long | case3 value long | case4 value long =>
      apply iff_of_false _ (code long)
      simp only [List.mem_cons, List.not_mem_nil, or_false, not_or]
      repeat' constructor
      all_goals exact high _ (by omega) (by omega)

theorem count_newline_utf8_bytes (text : List Char) :
    (utf8Bytes text).count newlineByte = text.count '\n' := by
  induction text with
  | nil => rfl
  | cons first rest induction =>
      rw [utf8_bytes_cons, List.count_append, induction, List.count_cons, Nat.add_comm]
      by_cases newline : first = '\n'
      · subst newline
        rfl
      · have absent := mt (newline_mem_encoded_iff first).1 newline
        rw [List.count_eq_zero.2 absent, if_neg (by simpa using newline)]

namespace LineTable

theorem starts_after_eq (offset : Nat) (text : List Char) :
    startsAfter offset text = (utf8Bytes text).findIdxs (· == newlineByte) (offset + 1) := by
  induction text generalizing offset with
  | nil => rfl
  | cons first rest induction =>
      have next : offset + 1 + first.utf8Size = offset + first.utf8Size + 1 := by omega
      rw [startsAfter, utf8_bytes_cons, List.findIdxs_append, String.length_utf8EncodeChar, next,
        ← induction]
      by_cases newline : first = '\n'
      · subst newline
        rfl
      · have absent := mt (newline_mem_encoded_iff first).1 newline
        have none : (String.utf8EncodeChar first).findIdxs (· == newlineByte) (offset + 1) = [] := by
          apply List.findIdxs_eq_nil_iff.2
          rintro byte member
          exact beq_false_of_ne fun same => absent (same ▸ member)
        rw [if_neg newline, none, List.nil_append]

theorem starts_of_source (source : List Char) : (ofSource source).starts =
    0 :: (utf8Bytes source).findIdxs (· == newlineByte) 1 := by
  rw [ofSource, starts_after_eq]

end LineTable

end RhoFrontend
