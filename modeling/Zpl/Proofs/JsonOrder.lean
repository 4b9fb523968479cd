import Zpl.Proofs.JsonText

/-! The order of members. A JSON object says the same with its members in any order, and so
do values that differ in nothing else (`Same`). Sorting the members of a value keeps what it
says and that it can be written (`same_sorted`, `Writable.sorted`). -/

namespace Zpl.Json

mutual

/-- Two values say the same: they are equal but for the order of members in objects. -/
inductive Same : Json → Json → Prop where
  | refl (v : Json) : Same v v
  | array {xs ys : List Json} : SameItems xs ys → Same (.array xs) (.array ys)
  | object {ms ns : List (String × Json)} : SameMembers ms ns → Same (.object ms) (.object ns)

inductive SameItems : List Json → List Json → Prop where
  | nil : SameItems [] []
  | cons {x y : Json} {xs ys : List Json} : Same x y → SameItems xs ys →
      SameItems (x :: xs) (y :: ys)

/-- The second list has for each member of the first one with its key, at any place. -/
inductive SameMembers : List (String × Json) → List (String × Json) → Prop where
  | nil : SameMembers [] []
  | cons {key : String} {v w : Json} {ms ns ns' : List (String × Json)} : Same v w →
      SameMembers ms ns → ns'.Perm ((key, w) :: ns) → SameMembers ((key, v) :: ms) ns'

end

theorem SameMembers.perm {ms ns ns' : List (String × Json)} (h : SameMembers ms ns)
    (hperm : ns'.Perm ns) : SameMembers ms ns' := by
  cases h with
  | nil =>
    rw [List.perm_nil.mp hperm]
    exact .nil
  | cons hvalue hmembers hcons => exact .cons hvalue hmembers (hperm.trans hcons)

mutual

/-- Sorting the members of a value does not change what it says. -/
theorem same_sorted : ∀ v : Json, Same v v.sorted
  | .array items => by
    rw [sorted]
    exact .array (same_sortedItems items)
  | .object members => by
    rw [sorted]
    exact .object ((same_sortedMembers members).perm (List.mergeSort_perm _ _))
  | .null => .refl _
  | .bool _ => .refl _
  | .number _ => .refl _
  | .decimal _ => .refl _
  | .string _ => .refl _
  | .unreadable _ => .refl _

theorem same_sortedItems : ∀ items : List Json, SameItems items (sortedItems items)
  | [] => .nil
  | item :: items => .cons (same_sorted item) (same_sortedItems items)

theorem same_sortedMembers : ∀ members : List (String × Json),
    SameMembers members (sortedMembers members)
  | [] => .nil
  | (_, value) :: members => .cons (same_sorted value) (same_sortedMembers members) (.refl _)

end

theorem sortedItems_eq (items : List Json) : sortedItems items = items.map sorted := by
  induction items with
  | nil => rfl
  | cons item items ih => rw [sortedItems, ih, List.map_cons]

theorem sortedMembers_eq (members : List (String × Json)) :
    sortedMembers members = members.map fun (key, value) => (key, value.sorted) := by
  induction members with
  | nil => rfl
  | cons member members ih =>
    obtain ⟨key, value⟩ := member
    rw [sortedMembers, ih, List.map_cons]

/-- What can be written can be written in order. -/
theorem Writable.sorted {depth : Nat} {v : Json} (h : Writable depth v) :
    Writable depth v.sorted := by
  induction h with
  | null => exact .null
  | bool b => exact .bool b
  | number hn => exact .number hn
  | decimal hliteral => exact .decimal hliteral
  | string s => exact .string s
  | @array _ items hdepth _ ih =>
    rw [Json.sorted, sortedItems_eq]
    refine .array hdepth fun item hitem => ?_
    obtain ⟨x, hx, rfl⟩ := List.mem_map.mp hitem
    exact ih x hx
  | @object _ members hdepth _ ih =>
    rw [Json.sorted, sortedMembers_eq]
    refine .object hdepth fun member hmember => ?_
    obtain ⟨x, hx, rfl⟩ := List.mem_map.mp (List.mem_mergeSort.mp hmember)
    exact ih x hx

/-- A value is read from the line that it is printed to. -/
theorem read?_line {v : Json} (h : Writable 0 v) : read? (v.pretty ++ "\n") = some v := by
  have htext : (v.pretty ++ "\n").toList = write .pretty 0 v ++ ['\n'] := by
    rw [String.toList_append, pretty, String.toList_ofList]
    rfl
  have hend : EndsNumber ['\n'] := by simp [EndsNumber]
  have hread := h.readsBack Layout.pretty_blank (2 * (write .pretty 0 v ++ ['\n']).length + 1)
    ['\n'] (by rw [List.length_append]; omega) hend
  rw [read?]
  simp only [htext, hread]
  rfl

end Zpl.Json
