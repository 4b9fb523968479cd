import Zpl.Json
import Zpl.Text.Decimal

/-! Reading JSON text. The reader accepts exactly the JSON grammar. Three things
are well formed and yet have no value: a string with half of a surrogate pair, a
number too large for a double, and a list too many levels deep. They are kept as
written, so that a reader of the value may still skip them. -/

namespace Zpl.Json

def isSpace (c : Char) : Bool :=
  c == ' ' || c == '\n' || c == '\t' || c == '\r'

def skipSpace (cs : List Char) : List Char :=
  cs.dropWhile isSpace

/-- The text in front of `rest`, which is an end of `cs`. -/
def textBefore (cs rest : List Char) : String :=
  .ofList (cs.take (cs.length - rest.length))

/-! ## Strings -/

def hexValue? (c : Char) : Option Nat :=
  if c.isDigit then some (c.toNat - '0'.toNat)
  else if 'a' ≤ c ∧ c ≤ 'f' then some (c.toNat - 'a'.toNat + 10)
  else if 'A' ≤ c ∧ c ≤ 'F' then some (c.toNat - 'A'.toNat + 10)
  else none

/-- The character that a one-letter escape stands for. -/
def unescape? : Char → Option Char
  | '"' => some '"'
  | '\\' => some '\\'
  | '/' => some '/'
  | 'b' => some '\x08'
  | 'f' => some '\x0c'
  | 'n' => some '\n'
  | 'r' => some '\r'
  | 't' => some '\t'
  | _ => none

/-- The code units of a string, up to its closing quote. A numeric escape gives
its number, which may be half of a surrogate pair; all else gives a character. -/
def readUnits : List Char → Option (List Nat × List Char)
  | [] => none
  | '"' :: rest => some ([], rest)
  | '\\' :: 'u' :: a :: b :: c :: d :: rest => do
    let unit := (((← hexValue? a) * 16 + (← hexValue? b)) * 16 + (← hexValue? c)) * 16 +
      (← hexValue? d)
    let (units, rest) ← readUnits rest
    return (unit :: units, rest)
  | '\\' :: e :: rest => do
    let c ← unescape? e
    let (units, rest) ← readUnits rest
    return (c.toNat :: units, rest)
  | c :: rest =>
    if c.toNat < 0x20 then none
    else (readUnits rest).map fun (units, rest) => (c.toNat :: units, rest)

def isHighSurrogate (unit : Nat) : Bool :=
  0xD800 ≤ unit && unit < 0xDC00

def isLowSurrogate (unit : Nat) : Bool :=
  0xDC00 ≤ unit && unit < 0xE000

/-- The characters of code units, if each half of a surrogate pair has its other
half. -/
def charsOfUnits? : List Nat → Option (List Char)
  | [] => some []
  | high :: low :: units =>
    if isHighSurrogate high && isLowSurrogate low then
      (charsOfUnits? units).map
        (Char.ofNat (0x10000 + (high - 0xD800) * 0x400 + (low - 0xDC00)) :: ·)
    else if isHighSurrogate high || isLowSurrogate high then none
    else (charsOfUnits? (low :: units)).map (Char.ofNat high :: ·)
  | [unit] =>
    if isHighSurrogate unit || isLowSurrogate unit then none else some [Char.ofNat unit]

/-- A string behind its opening quote; no value if a surrogate stands alone. -/
def readString (cs : List Char) : Option (Option String × List Char) :=
  (readUnits cs).map fun (units, rest) => ((charsOfUnits? units).map String.ofList, rest)

/-! ## Numbers -/

/-- The least magnitude that rounds to no finite double. -/
def doubleLimit : Nat := Nat.pow 2 1024 - Nat.pow 2 970

/-- The double nearest to an integer; of two the one with the even mantissa. -/
def nearestDouble (n : Nat) : Nat :=
  let unit := Nat.pow 2 (n.log2 - 52)
  let mantissa := n / unit
  let rest := n % unit
  if 2 * rest < unit || (2 * rest == unit && mantissa % 2 == 0) then mantissa * unit
  else (mantissa + 1) * unit

/-- Whether `mantissa` times ten to the `exponent` is too large. Both factors are
rounded to doubles before they are multiplied. -/
def overflows (mantissa : Nat) (exponent : Int) : Bool :=
  0 < mantissa && 0 < exponent &&
    (308 < exponent ||
      doubleLimit ≤ nearestDouble mantissa * nearestDouble (Nat.pow 10 exponent.toNat))

/-- Appends digits to a mantissa as long as it stays below 64 bits. The second
component is the number of digits left. -/
def appendDigits (mantissa : Nat) : List Char → Nat × Nat
  | [] => (mantissa, 0)
  | d :: ds =>
    let next := 10 * mantissa + (d.toNat - '0'.toNat)
    if next < 0x10000000000000000 then appendDigits next ds else (mantissa, ds.length + 1)

/-- Whether a number is too large for a double. Digits that do not fit the
mantissa count by their number only: those before the point raise the exponent. -/
def tooLarge (digits fraction : List Char) (exponent : Int) : Bool :=
  let (whole, dropped) := appendDigits 0 digits
  let (mantissa, unused) := appendDigits whole fraction
  overflows mantissa (exponent + dropped - (fraction.length - unused : Nat))

/-- A run of digits behind a sign or mark that requires one. -/
def readDigits (cs : List Char) : Option (List Char × List Char) :=
  let digits := cs.takeWhile Char.isDigit
  if digits.isEmpty then none else some (digits, cs.dropWhile Char.isDigit)

/-- The digits behind a decimal point, if there is one. -/
def readFraction : List Char → Option (List Char × List Char)
  | '.' :: cs => readDigits cs
  | cs => some ([], cs)

/-- The exponent of a number, if it has one. -/
def readExponent : List Char → Option (Option Int × List Char)
  | mark :: cs =>
    if mark == 'e' || mark == 'E' then
      let (negative, body) := match cs with
        | '-' :: body => (true, body)
        | '+' :: body => (false, body)
        | body => (false, body)
      (readDigits body).map fun (digits, rest) =>
        let n : Int := Nat.ofDigitChars 10 digits 0
        (some (if negative then -n else n), rest)
    else some (none, mark :: cs)
  | [] => some (none, [])

/-- A number: an integer has its value, any other one is kept as written. -/
def readNumber (cs : List Char) : Option (Json × List Char) := do
  let (negative, body) := match cs with
    | '-' :: body => (true, body)
    | body => (false, body)
  let (digits, behindDigits) ← readDigits body
  if digits.head? == some '0' && digits.length != 1 then none
  let (fraction, behindFraction) ← readFraction behindDigits
  let (exponent, rest) ← readExponent behindFraction
  let n := Nat.ofDigitChars 10 digits 0
  if tooLarge digits fraction (exponent.getD 0) then
    return (.unreadable (textBefore cs rest), rest)
  if fraction.isEmpty && exponent.isNone && !(negative && n == 0) then
    return (.number (if negative then -n else n), rest)
  return (.decimal (textBefore cs rest), rest)

/-! ## Values -/

/-- The number of levels that a value may have. -/
def maxDepth : Nat := 127

/-- An object, if all its keys can be read. -/
def objectOf (members : List (Option String × Json)) (literal : String) : Json :=
  match members.mapM fun (key, value) => key.map fun key => (key, value) with
  | some members => .object members
  | none => .unreadable literal

mutual

/-- The value at the start of a text that stands so many levels deep, and the
text behind it. The first argument bounds the number of nested calls. -/
def readValue : Nat → Nat → List Char → Option (Json × List Char)
  | 0, _, _ => none
  | bound + 1, depth, cs =>
    match skipSpace cs with
    | 'n' :: 'u' :: 'l' :: 'l' :: rest => some (.null, rest)
    | 't' :: 'r' :: 'u' :: 'e' :: rest => some (.bool true, rest)
    | 'f' :: 'a' :: 'l' :: 's' :: 'e' :: rest => some (.bool false, rest)
    | '"' :: body => do
      let (value, rest) ← readString body
      return (value.elim (.unreadable (textBefore ('"' :: body) rest)) .string, rest)
    | '[' :: body => do
      let (items, rest) ← readArray bound depth body
      if depth < maxDepth then return (.array items, rest)
      else return (.unreadable (textBefore ('[' :: body) rest), rest)
    | '\x7b' :: body => do
      let (members, rest) ← readObject bound depth body
      let literal := textBefore ('\x7b' :: body) rest
      if depth < maxDepth then return (objectOf members literal, rest)
      else return (.unreadable literal, rest)
    | other => readNumber other

/-- The items of an array behind its opening bracket. -/
def readArray : Nat → Nat → List Char → Option (List Json × List Char)
  | 0, _, _ => none
  | bound + 1, depth, cs =>
    match skipSpace cs with
    | ']' :: rest => some ([], rest)
    | body => do
      let (item, rest) ← readValue bound (depth + 1) body
      let (items, rest) ← readItems bound depth rest
      return (item :: items, rest)

/-- The items of an array behind one of them. -/
def readItems : Nat → Nat → List Char → Option (List Json × List Char)
  | 0, _, _ => none
  | bound + 1, depth, cs =>
    match skipSpace cs with
    | ']' :: rest => some ([], rest)
    | ',' :: body => do
      let (item, rest) ← readValue bound (depth + 1) body
      let (items, rest) ← readItems bound depth rest
      return (item :: items, rest)
    | _ => none

/-- The members of an object behind its opening brace. -/
def readObject : Nat → Nat → List Char → Option (List (Option String × Json) × List Char)
  | 0, _, _ => none
  | bound + 1, depth, cs =>
    match skipSpace cs with
    | '\x7d' :: rest => some ([], rest)
    | body => do
      let (member, rest) ← readMember bound depth body
      let (members, rest) ← readMembers bound depth rest
      return (member :: members, rest)

/-- The members of an object behind one of them. -/
def readMembers : Nat → Nat → List Char → Option (List (Option String × Json) × List Char)
  | 0, _, _ => none
  | bound + 1, depth, cs =>
    match skipSpace cs with
    | '\x7d' :: rest => some ([], rest)
    | ',' :: body => do
      let (member, rest) ← readMember bound depth body
      let (members, rest) ← readMembers bound depth rest
      return (member :: members, rest)
    | _ => none

/-- A key and its value. -/
def readMember : Nat → Nat → List Char → Option ((Option String × Json) × List Char)
  | 0, _, _ => none
  | bound + 1, depth, cs =>
    match skipSpace cs with
    | '"' :: body => do
      let (key, rest) ← readString body
      match skipSpace rest with
      | ':' :: rest =>
        let (value, rest) ← readValue bound (depth + 1) rest
        return ((key, value), rest)
      | _ => none
    | _ => none

end

/-- The value that a whole text stands for. -/
def read? (text : String) : Option Json :=
  let cs := text.toList
  match readValue (2 * cs.length + 1) 0 cs with
  | some (value, rest) => if (skipSpace rest).isEmpty then some value else none
  | none => none

end Zpl.Json
