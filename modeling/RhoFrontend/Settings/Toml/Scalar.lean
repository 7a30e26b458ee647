import RhoFrontend.Settings.Toml.Text
import RhoFrontend.Settings.Value
import RhoFrontend.Text.Integer

/-!
The values of settings files in TOML that hold no others: strings, numbers, truth values, and dates
with times, which count as strings. A number above the doubles is none.
-/

namespace RhoFrontend.Settings.Toml

/-- Digits of a base, with single underscores between some of them. -/
def digits? (base : Nat) (text : List Char) : Option (List Char) :=
  let digits := text.filter (· != '_')
  let spaced := (text.zip (text.drop 1)).any fun (left, right) => left == '_' && right == '_'
  let isDigit (char : Char) : Bool := (Hexadecimal.digitValue? char).any (· < base)
  if digits.isEmpty || !digits.all isDigit || spaced || text.head? == some '_' ||
      text.getLast? == some '_' then none
  else some digits

/-- Decimal digits of a whole part: several of them start with no zero. -/
def wholeDigits? (text : List Char) : Option (List Char) := do
  let digits ← digits? 10 text
  if digits.head? == some '0' && digits.length > 1 then none else some digits

def valueInBase (base : Nat) (digits : List Char) : Nat :=
  digits.foldl (fun total digit => total * base + (Hexadecimal.digitValue? digit).getD 0) 0

/-- The base that an integer announces, and its digits. Such an integer has no sign. -/
def base? : List Char → Option (Nat × List Char)
  | '0' :: 'x' :: digits => some (16, digits)
  | '0' :: 'o' :: digits => some (8, digits)
  | '0' :: 'b' :: digits => some (2, digits)
  | _ => none

def splitSign : List Char → Bool × List Char
  | '-' :: rest => (true, rest)
  | '+' :: rest => (false, rest)
  | rest => (false, rest)

/-- The digits before a mark, and what comes after the mark if it is there. -/
def splitAtMark (isMark : Char → Bool) (text : List Char) : List Char × Option (List Char) :=
  let before := text.takeWhile fun char => !isMark char
  match text.drop before.length with
  | [] => (before, none)
  | _ :: after => (before, some after)

/-- A number with a fraction, an exponent or both. Only on the negative side may it be beyond every
double. -/
def decimal? (text : List Char) : Option Decimal := do
  let (negative, magnitude) := splitSign text
  let (mantissa, exponent) := splitAtMark (fun char => char == 'e' || char == 'E') magnitude
  let (whole, fraction) := splitAtMark (· == '.') mantissa
  if exponent.isNone && fraction.isNone then none
  let whole ← wholeDigits? whole
  let fraction ← (fraction.map (digits? 10)).getD (some [])
  let exponent ← (exponent.map fun text =>
    let (negative, digits) := splitSign text
    (digits? 10 digits).map (Integer.valueOfDigits negative)).getD (some 0)
  let value : Decimal :=
    ⟨Integer.valueOfDigits negative (whole ++ fraction), exponent - fraction.length⟩
  if value.overflows && !negative then none else some value

/-- The integer that a word spells, of any size. -/
def integer? (word : List Char) : Option Int :=
  match base? word with
  | some (base, digits) => (digits? base digits).map fun digits => valueInBase base digits
  | none =>
      let (negative, magnitude) := splitSign word
      (wholeDigits? magnitude).map (Integer.valueOfDigits negative)

/-- A word that stands for a value of its own. -/
def wordValue? (word : List Char) : Option Value :=
  if word = "true".toList then some (.bool true)
  else if word = "false".toList then some (.bool false)
  else if ["inf".toList, "nan".toList].contains (splitSign word).2 then some .notFinite
  else
    match integer? word with
    | some value => (Integer.ofInt? value).map fun value => .integer value.toInt
    | none => (decimal? word).map .decimal

/-! Dates and times. -/

/-- The number that so many digits spell. -/
def number? (length : Nat) (text : List Char) : Option (Nat × List Char) :=
  let digits := text.take length
  if digits.length = length ∧ digits.all Char.isDigit then
    some (Nat.ofDigitChars 10 digits 0, text.drop length)
  else none

def after? (mark : Char) : List Char → Option (List Char)
  | char :: rest => if char = mark then some rest else none
  | [] => none

def isLeapYear (year : Nat) : Bool := year % 4 == 0 && (year % 100 != 0 || year % 400 == 0)

def daysIn (year month : Nat) : Nat :=
  if month = 2 then if isLeapYear year then 29 else 28
  else if [4, 6, 9, 11].contains month then 30
  else 31

/-- What comes after a day of a year. -/
def afterDate? (text : List Char) : Option (List Char) := do
  let (year, rest) ← number? 4 text
  let (month, rest) ← number? 2 (← after? '-' rest)
  let (day, rest) ← number? 2 (← after? '-' rest)
  if 1 ≤ month ∧ month ≤ 12 ∧ 1 ≤ day ∧ day ≤ daysIn year month then some rest else none

/-- Hours and minutes. -/
def clock? (text : List Char) : Option (Nat × Nat × List Char) := do
  let (hour, rest) ← number? 2 text
  let (minute, rest) ← number? 2 (← after? ':' rest)
  if hour ≤ 23 ∧ minute ≤ 59 then some (hour, minute, rest) else none

/-- A fraction of a second, of which nine digits count, and no zeros at their end. -/
def secondFraction (text : List Char) : List Char × List Char :=
  match text with
  | '.' :: rest =>
      let digits := rest.takeWhile Char.isDigit
      let counted := ((digits.take 9).reverse.dropWhile (· == '0')).reverse
      if digits.isEmpty then ([], text)
      else (if counted.isEmpty then [] else '.' :: counted, rest.drop digits.length)
  | _ => ([], text)

/-- A time of the day to the second, sixty of which may come before a minute ends. -/
def time? (text : List Char) : Option (List Char × List Char) := do
  let (_, _, rest) ← clock? text
  let (second, rest) ← number? 2 (← after? ':' rest)
  if second ≤ 60 then
    let (fraction, rest) := secondFraction rest
    some (text.take 8 ++ fraction, rest)
  else none

/-- The offset from universal time that may come after a time. -/
def offset (text : List Char) : List Char × List Char :=
  match text with
  | 'Z' :: rest | 'z' :: rest => (['Z'], rest)
  | sign :: rest =>
      match clock? rest with
      | some (hour, minute, after) =>
          if sign = '+' ∨ sign = '-' then
            ((if hour + minute = 0 then '+' else sign) :: rest.take 5, after)
          else ([], text)
      | none => ([], text)
  | [] => ([], [])

/-- A date, a time, or a date and a time with a letter or a space between them, as it is written
where there is a choice. -/
def moment? (text : List Char) : Option (List Char × List Char) :=
  match afterDate? text with
  | none => time? text
  | some afterDate =>
      let date := text.take 10
      match afterDate with
      | [] => some (date, [])
      | separator :: rest =>
          match time? rest with
          | some (time, afterTime) =>
              if ['T', 't', ' '].contains separator then
                let (offset, after) := offset afterTime
                some (date ++ 'T' :: time ++ offset, after)
              else some (date, afterDate)
          | none => some (date, afterDate)

/-- Whether a character ends a word. -/
def endsWord (char : Char) : Bool :=
  isSpace char || ['\n', '\r', '#', ',', ']', '}'].contains char

/-- A value that holds no others. -/
def scalar? : List Char → Option (Value × List Char)
  | '"' :: rest => (string? '"' rest).map fun (content, after) => (.string content, after)
  | '\'' :: rest => (string? '\'' rest).map fun (content, after) => (.string content, after)
  | text =>
      match moment? text with
      | some (written, after) => some (.string (String.ofList written), after)
      | none =>
          let word := text.takeWhile fun char => !endsWord char
          (wordValue? word).map fun value => (value, text.drop word.length)

end RhoFrontend.Settings.Toml
