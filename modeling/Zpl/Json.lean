/-! JSON values. Objects keep the order of their members, and members may repeat:
a value says what a text says, and what to make of it is left to its readers. -/

namespace Zpl

inductive Json where
  | null
  | bool (value : Bool)
  | number (value : Int)
  /-- A number written with a fraction or an exponent, or as minus zero. -/
  | decimal (literal : String)
  | string (value : String)
  | array (items : List Json)
  | object (members : List (String × Json))
  /-- A text that is well formed but stands for no value here. -/
  | unreadable (literal : String)
deriving Inhabited

namespace Json

mutual

/-- Whether every part of a value can be read. -/
def readable : Json → Bool
  | .unreadable _ => false
  | .array items => readableItems items
  | .object members => readableMembers members
  | _ => true

def readableItems : List Json → Bool
  | [] => true
  | item :: items => readable item && readableItems items

def readableMembers : List (String × Json) → Bool
  | [] => true
  | (_, value) :: members => readable value && readableMembers members

end

mutual

/-- A value with the members of all objects in ascending key order. -/
def sorted : Json → Json
  | .array items => .array (sortedItems items)
  | .object members =>
    .object ((sortedMembers members).mergeSort fun a b => decide (a.1 ≤ b.1))
  | value => value

def sortedItems : List Json → List Json
  | [] => []
  | item :: items => sorted item :: sortedItems items

def sortedMembers : List (String × Json) → List (String × Json)
  | [] => []
  | (key, value) :: members => (key, sorted value) :: sortedMembers members

end

end Json
end Zpl
