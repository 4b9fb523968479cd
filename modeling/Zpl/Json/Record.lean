import Zpl.Json

/-! Records in JSON. A record is written as an object of its fields, in any order
and among other members, or as an array of the fields in their order, of which
the last ones may be left out. A field may not repeat. -/

namespace Zpl.Json

/-- The value of a member that occurs at most once: none for no value, nothing
at all for a repeated member. -/
def uniqueMember? (members : List (String × Json)) (key : String) : Option (Option Json) :=
  match members.filter (·.1 == key) with
  | [] => some none
  | [(_, value)] => some (some value)
  | _ => none

/-- The value of a field of a record with the given fields: none for an absent
one, nothing at all if the value is no such record or repeats the field. -/
def field? (fields : List String) (key : String) : Json → Option (Option Json)
  | .object members => uniqueMember? members key
  | .array items =>
    if items.length ≤ fields.length then some items[fields.idxOf key]? else none
  | _ => none

/-- A field that has to be there. -/
def required {α : Type} (fields : List String) (key : String) (decode : Json → Option α)
    (value : Json) : Option α := do
  decode (← (← field? fields key value))

/-- A field that may be absent or null. -/
def optional {α : Type} (fields : List String) (key : String) (decode : Json → Option α)
    (value : Json) : Option (Option α) := do
  match ← field? fields key value with
  | none | some .null => return none
  | some found => return some (← decode found)

def list? {α : Type} (decode : Json → Option α) : Json → Option (List α)
  | .array items => items.mapM decode
  | _ => none

def string? : Json → Option String
  | .string s => some s
  | _ => none

def bool? : Json → Option Bool
  | .bool b => some b
  | _ => none

def number? : Json → Option Int
  | .number n => some n
  | _ => none

end Zpl.Json
