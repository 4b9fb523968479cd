import Zpl.Json
import Zpl.Text.Decimal

/-! Writing JSON text. One writer serves both forms, which differ in the white
space between the parts of a value and in nothing else. -/

namespace Zpl.Json

/-- The white space of a written form. -/
structure Layout where
  /-- What stands before the parts of a list that is so many levels deep. -/
  newline : Nat → List Char
  /-- What stands between a key and its value. -/
  colon : List Char

namespace Layout

/-- No white space at all. -/
def compact : Layout := ⟨fun _ => [], [':']⟩

/-- A line for each part, indented by two spaces a level. -/
def pretty : Layout := ⟨fun depth => '\n' :: List.replicate (2 * depth) ' ', [':', ' ']⟩

end Layout

/-- The lower-case hexadecimal digit of a number below 16. -/
def hexDigit (n : Nat) : Char :=
  Nat.digitChar n

/-- The written form of a character in a string: quotes, backslashes and control
characters are escaped, all others stand for themselves. -/
def escape (c : Char) : List Char :=
  match c with
  | '"' => ['\\', '"']
  | '\\' => ['\\', '\\']
  | '\x08' => ['\\', 'b']
  | '\x0c' => ['\\', 'f']
  | '\n' => ['\\', 'n']
  | '\r' => ['\\', 'r']
  | '\t' => ['\\', 't']
  | c =>
    if c.toNat < 0x20 then
      ['\\', 'u', '0', '0', hexDigit (c.toNat / 16), hexDigit (c.toNat % 16)]
    else [c]

def writeString (s : String) : List Char :=
  '"' :: s.toList.flatMap escape ++ ['"']

mutual

/-- The text of a value that stands so many levels deep. -/
def write (l : Layout) (depth : Nat) : Json → List Char
  | .null => ['n', 'u', 'l', 'l']
  | .bool true => ['t', 'r', 'u', 'e']
  | .bool false => ['f', 'a', 'l', 's', 'e']
  | .number n => Text.printInt n
  | .decimal literal => literal.toList
  | .string s => writeString s
  | .array [] => ['[', ']']
  | .array (item :: items) =>
    '[' :: l.newline (depth + 1) ++ write l (depth + 1) item ++ writeItems l depth items
  | .object [] => ['\x7b', '\x7d']
  | .object ((key, value) :: members) =>
    '\x7b' :: l.newline (depth + 1) ++ writeString key ++ l.colon ++
      write l (depth + 1) value ++ writeMembers l depth members
  | .unreadable literal => literal.toList

/-- The items behind the first one, and the end of the array. -/
def writeItems (l : Layout) (depth : Nat) : List Json → List Char
  | [] => l.newline depth ++ [']']
  | item :: items =>
    ',' :: l.newline (depth + 1) ++ write l (depth + 1) item ++ writeItems l depth items

/-- The members behind the first one, and the end of the object. -/
def writeMembers (l : Layout) (depth : Nat) : List (String × Json) → List Char
  | [] => l.newline depth ++ ['\x7d']
  | (key, value) :: members =>
    ',' :: l.newline (depth + 1) ++ writeString key ++ l.colon ++
      write l (depth + 1) value ++ writeMembers l depth members

end

def compact (value : Json) : String :=
  .ofList (write .compact 0 value)

def pretty (value : Json) : String :=
  .ofList (write .pretty 0 value)

end Zpl.Json
