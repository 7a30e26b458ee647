import Mathlib.Data.List.DropRight
import RhoFrontend.Format.Tag

/-!
Text in nested tags, read without knowing where it comes from. The text is cut at the brackets that
open tags, and the tags are read with a stack of the elements that are still open.
-/

namespace RhoFrontend.Markup

/-- The text in which no character is written by name any more. -/
def unescape : List Char → List Char
  | '&' :: 'a' :: 'm' :: 'p' :: ';' :: rest => '&' :: unescape rest
  | '&' :: 'l' :: 't' :: ';' :: rest => '<' :: unescape rest
  | '&' :: 'g' :: 't' :: ';' :: rest => '>' :: unescape rest
  | '&' :: 'q' :: 'u' :: 'o' :: 't' :: ';' :: rest => '"' :: unescape rest
  | '&' :: 'a' :: 'p' :: 'o' :: 's' :: ';' :: rest => '\'' :: unescape rest
  | char :: rest => char :: unescape rest
  | [] => []

private theorem unescape_cons {char : Char} (plain : char ≠ '&') (rest : List Char) :
    unescape (char :: rest) = char :: unescape rest := by
  rw [unescape]
  all_goals
    intros
    exact plain ‹_›

private theorem unescape_escape_char (char : Char) (rest : List Char) :
    unescape (TagDump.escapeChar char ++ rest) = char :: unescape rest := by
  unfold TagDump.escapeChar
  split
  · rfl
  · rfl
  · rfl
  · rfl
  · rfl
  · next plain _ _ _ _ => exact unescape_cons plain rest

/-- Names are written by characters that stand for themselves behind an `&`, and no other `&` is
left in an escaped text. So text that looks like a name is not taken for one. -/
theorem unescape_escape (text : List Char) : unescape (TagDump.escape text) = text := by
  induction text with
  | nil => rfl
  | cons char rest induction =>
      rw [TagDump.escape, List.flatMap_cons, unescape_escape_char, ← TagDump.escape, induction]

theorem no_bracket_in_escape (text : List Char) : '<' ∉ TagDump.escape text := by
  intro member
  obtain ⟨char, -, inside⟩ := List.mem_flatMap.1 member
  unfold TagDump.escapeChar at inside
  split at inside
  · simp at inside
  · simp at inside
  · simp at inside
  · simp at inside
  · simp at inside
  · next _ plain _ _ _ => exact plain (List.mem_singleton.1 inside).symm

/-- A tag and the text behind it. -/
structure Tag where
  closing : Bool
  name : String
  text : List Char

namespace Tag

/-- What stands between the bracket that opens the tag and the next such bracket. -/
def body (tag : Tag) : List Char :=
  (if tag.closing then ['/'] else []) ++ (tag.name.toList ++ '>' :: tag.text)

def write (tags : List Tag) : List Char := tags.flatMap fun tag => '<' :: tag.body

/-- The names of the opening tags. -/
def opened (tags : List Tag) : List String :=
  (tags.filter fun tag => !tag.closing).map name

/-- The name reaches to the next bracket that closes, and the text is all that is left. -/
def named? (closing : Bool) (body : List Char) : Option Tag :=
  match body.dropWhile (· != '>') with
  | [] => none
  | _ :: text => some ⟨closing, String.ofList (body.takeWhile (· != '>')), text⟩

def ofBody? : List Char → Option Tag
  | '/' :: body => named? true body
  | body => named? false body

/-- The tags of a text that has nothing in front of the first one. -/
def ofText? (text : List Char) : Option (List Tag) :=
  match text.splitOn '<' with
  | [] :: bodies => bodies.mapM ofBody?
  | _ => none

/-- No character of the name or the text can be taken for a bracket or for the slash. -/
structure Plain (tag : Tag) : Prop where
  name : ∀ char ∈ tag.name.toList, char ≠ '<' ∧ char ≠ '>' ∧ char ≠ '/'
  text : '<' ∉ tag.text

theorem named_append (closing : Bool) {name : String} (inside : ∀ char ∈ name.toList, char ≠ '>')
    (text : List Char) : named? closing (name.toList ++ '>' :: text) = some ⟨closing, name, text⟩ := by
  have kept : ∀ char ∈ name.toList, (char != '>') = true := by simpa using inside
  rw [named?, List.dropWhile_append_of_pos kept, List.takeWhile_append_of_pos kept]
  simp

theorem of_body {tag : Tag} (plain : tag.Plain) : ofBody? tag.body = some tag := by
  obtain ⟨closing, name, text⟩ := tag
  have inside : ∀ char ∈ name.toList, char ≠ '>' := fun char member =>
    (plain.name char member).2.1
  cases closing with
  | true => exact named_append true inside text
  | false =>
      have read := named_append false inside text
      simp only [body, Bool.false_eq_true, if_false, List.nil_append]
      unfold ofBody?
      split
      · next slash =>
          cases letters : name.toList with
          | nil =>
              rw [letters] at slash
              cases slash
          | cons first others =>
              rw [letters] at slash
              cases slash
              have member : '/' ∈ name.toList := letters ▸ List.mem_cons_self
              exact absurd rfl (plain.name '/' member).2.2
      · exact read

theorem no_bracket_in_body {tag : Tag} (plain : tag.Plain) : '<' ∉ tag.body := by
  intro member
  rcases List.mem_append.1 member with slash | rest
  · split at slash <;> simp at slash
  · rcases List.mem_append.1 rest with inName | inText
    · exact (plain.name '<' inName).1 rfl
    · exact plain.text (List.mem_of_ne_of_mem (by decide) inText)

theorem split_bodies {tags : List Tag} (plain : ∀ tag ∈ tags, tag.Plain) {front : List Char}
    (free : '<' ∉ front) :
    (front ++ write tags).splitOn '<' = front :: tags.map body := by
  rw [write]
  induction tags generalizing front with
  | nil =>
      rw [List.flatMap_nil, List.append_nil, List.splitOn_eq_singleton free, List.map_nil]
  | cons tag tags induction =>
      obtain ⟨here, others⟩ := List.forall_mem_cons.1 plain
      rw [List.flatMap_cons, List.cons_append, List.splitOn_append_cons_self_of_not_mem free,
        induction others (no_bracket_in_body here), List.map_cons]

/-- Plain tags are found again in their text. -/
theorem of_text {tags : List Tag} (plain : ∀ tag ∈ tags, tag.Plain) :
    ofText? (write tags) = some tags := by
  have bodies := split_bodies plain List.not_mem_nil
  have each : (tags.map body).mapM ofBody? = some tags := by
    clear bodies
    induction tags with
    | nil => rfl
    | cons tag tags induction =>
        obtain ⟨here, others⟩ := List.forall_mem_cons.1 plain
        rw [List.map_cons, List.mapM_cons, of_body here, induction others]
        rfl
  rw [List.nil_append] at bodies
  rw [ofText?, bodies]
  exact each

end Tag

/-- What stands between an opening tag and the closing tag that goes with it. The text is the one
directly behind the opening tag, up to the next tag. -/
structure Element where
  name : String
  text : List Char
  inside : List Element

/-- The text of an element, less the line break and the indentation before the first element
inside. -/
def Element.label (element : Element) : List Char :=
  unescape (if element.inside.isEmpty then element.text
    else (element.text.rdropWhile (· == ' ')).dropLast)

/-- An element whose closing tag is still to come, with the elements that stand before it inside the
same element. -/
structure Opened where
  name : String
  text : List Char
  earlier : List Element

/-- The elements read so far inside the innermost open element, and the stack of open ones. -/
structure Reader where
  elements : List Element
  stack : List Opened

namespace Reader

def start : Reader := ⟨[], []⟩

/-- A closing tag has to have the name of the innermost open element. -/
def step (reader : Reader) (tag : Tag) : Option Reader :=
  if tag.closing then
    match reader.stack with
    | [] => none
    | innermost :: outer =>
        if tag.name = innermost.name then
          some ⟨innermost.earlier ++ [⟨innermost.name, innermost.text, reader.elements⟩], outer⟩
        else none
  else some ⟨[], ⟨tag.name, tag.text, reader.elements⟩ :: reader.stack⟩

def add (reader : Reader) (elements : List Element) : Reader :=
  ⟨reader.elements ++ elements, reader.stack⟩

end Reader

/-- The elements of a list of tags, if each closing tag goes with the innermost open element and
none is open at the end. -/
def Element.ofTags? (tags : List Tag) : Option (List Element) :=
  match tags.foldlM Reader.step Reader.start with
  | some ⟨elements, []⟩ => some elements
  | _ => none

end RhoFrontend.Markup
