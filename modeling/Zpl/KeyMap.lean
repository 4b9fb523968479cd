/-! Finite maps with text keys, listed in ascending key order (by code point).
The order is part of the type, so two maps with the same entries are equal and
a listing never depends on the order of insertion. -/

namespace Zpl

structure KeyMap (α : Type) where
  entries : List (String × α)
  ascending : entries.Pairwise fun a b => a.1 < b.1
deriving DecidableEq

namespace KeyMap

variable {α : Type}

def empty : KeyMap α := ⟨[], .nil⟩

def keys (m : KeyMap α) : List String :=
  m.entries.map Prod.fst

def find? (m : KeyMap α) (key : String) : Option α :=
  m.entries.lookup key

def contains (m : KeyMap α) (key : String) : Bool :=
  (m.find? key).isSome

/-- Puts an entry at its place in an ascending list, replacing one with the same key. -/
def place (key : String) (value : α) : List (String × α) → List (String × α)
  | [] => [(key, value)]
  | (k, v) :: rest =>
    if key < k then (key, value) :: (k, v) :: rest
    else if key = k then (key, value) :: rest
    else (k, v) :: place key value rest

theorem mem_place {key : String} {value : α} {entries : List (String × α)} {e : String × α}
    (h : e ∈ place key value entries) : e = (key, value) ∨ e ∈ entries := by
  induction entries with
  | nil => simpa [place] using h
  | cons head rest ih =>
    simp only [place] at h
    split at h
    · simpa using h
    split at h
    · rcases List.mem_cons.mp h with h | h
      · exact .inl h
      · exact .inr (List.mem_cons_of_mem _ h)
    · rcases List.mem_cons.mp h with h | h
      · exact .inr (h ▸ List.mem_cons_self)
      · exact (ih h).imp id (List.mem_cons_of_mem _)

theorem place_ascending (key : String) (value : α) {entries : List (String × α)}
    (h : entries.Pairwise fun a b => a.1 < b.1) :
    (place key value entries).Pairwise fun a b => a.1 < b.1 := by
  induction entries with
  | nil => simp [place]
  | cons head rest ih =>
    obtain ⟨hhead, hrest⟩ := List.pairwise_cons.mp h
    simp only [place]
    split
    · next hlt =>
      refine List.pairwise_cons.mpr ⟨fun e he => ?_, h⟩
      rcases List.mem_cons.mp he with rfl | he
      · exact hlt
      · exact String.lt_trans hlt (hhead e he)
    split
    · next heq =>
      refine List.pairwise_cons.mpr ⟨fun e he => ?_, hrest⟩
      have := hhead e he
      rwa [← heq] at this
    · next hge hne =>
      refine List.pairwise_cons.mpr ⟨fun e he => ?_, ih hrest⟩
      rcases mem_place he with rfl | he
      · exact String.not_le.mp fun hle => hne (String.le_antisymm hle (String.not_lt.mp hge))
      · exact hhead e he

/-- Adds an entry or replaces the one with its key. -/
def insert (m : KeyMap α) (key : String) (value : α) : KeyMap α :=
  ⟨place key value m.entries, place_ascending key value m.ascending⟩

theorem lookup_place (key : String) (value : α) (entries : List (String × α)) (k : String) :
    (place key value entries).lookup k = if k = key then some value else entries.lookup k := by
  have hbeq : ∀ x y : String, (x == y) = decide (x = y) := fun _ _ => rfl
  induction entries with
  | nil => by_cases h : k = key <;> simp [place, List.lookup_cons, hbeq, h]
  | cons head rest ih =>
    obtain ⟨k', v'⟩ := head
    simp only [place]
    split
    · by_cases h : k = key <;> simp [List.lookup_cons, hbeq, h]
    split
    · next h => subst h; by_cases h : k = key <;> simp [List.lookup_cons, hbeq, h]
    · next h =>
      by_cases hk : k = k'
      · subst hk; simp [Ne.symm h]
      · simp [List.lookup_cons, hbeq, hk, ih]

/-- Looking up after an insertion: the new value at its key, the old ones elsewhere. -/
theorem find?_insert (m : KeyMap α) (key : String) (value : α) (k : String) :
    (m.insert key value).find? k = if k = key then some value else m.find? k :=
  lookup_place key value m.entries k

/-- The keys with a property do not change with a key that does not have it. -/
theorem filter_keys_insert (m : KeyMap α) {key : String} (value : α) {p : String → Bool}
    (hp : p key = false) : (m.insert key value).keys.filter p = m.keys.filter p := by
  show ((place key value m.entries).map Prod.fst).filter p = (m.entries.map Prod.fst).filter p
  induction m.entries with
  | nil => simp [place, hp]
  | cons head rest ih =>
    obtain ⟨k, v⟩ := head
    simp only [place]
    split
    · simp [hp]
    split
    · next heq =>
      subst heq
      simp [hp]
    · simp only [List.map_cons, List.filter_cons, ih]

/-- A new value for a key that is there changes no key. -/
theorem keys_insert {m : KeyMap α} {key : String} (value : α) (h : m.find? key ≠ none) :
    (m.insert key value).keys = m.keys := by
  obtain ⟨entries, hascending⟩ := m
  show (place key value entries).map Prod.fst = entries.map Prod.fst
  have hmem : ∃ e ∈ entries, e.1 = key := by
    obtain ⟨old, hold⟩ := Option.ne_none_iff_exists'.mp h
    obtain ⟨front, back, hsplit, -⟩ := List.lookup_eq_some_iff.mp hold
    refine ⟨(key, old), ?_, rfl⟩
    rw [show entries = _ from hsplit]
    exact List.mem_append_right _ List.mem_cons_self
  clear h
  induction entries with
  | nil => simp at hmem
  | cons head rest ih =>
    obtain ⟨k, v⟩ := head
    obtain ⟨hhead, hrest⟩ := List.pairwise_cons.mp hascending
    obtain ⟨e, he, hkey⟩ := hmem
    simp only [place]
    rcases List.mem_cons.mp he with rfl | he
    · have hkey : k = key := hkey
      subst hkey
      simp
    · have hlt : k < key := hkey ▸ hhead e he
      have hne : key ≠ k := fun heq => String.lt_irrefl k (heq ▸ hlt)
      rw [if_neg fun hgt => String.lt_irrefl k (String.lt_trans hlt hgt), if_neg hne,
        List.map_cons, ih hrest ⟨e, he, hkey⟩]
      rfl

/-- The map of a list of entries; of several with one key the last counts. -/
def ofList (entries : List (String × α)) : KeyMap α :=
  entries.foldl (fun m (key, value) => m.insert key value) empty

theorem find?_ofList (entries : List (String × α)) (k : String) :
    (ofList entries).find? k = entries.reverse.lookup k := by
  have hbeq : ∀ x y : String, (x == y) = decide (x = y) := fun _ _ => rfl
  have hfold : ∀ m : KeyMap α,
      (entries.foldl (fun m (key, value) => m.insert key value) m).find? k =
        (entries.reverse.lookup k).or (m.find? k) := by
    induction entries with
    | nil => intro m; rfl
    | cons e entries ih =>
      intro m
      obtain ⟨key, value⟩ := e
      rw [List.foldl_cons, ih, find?_insert, List.reverse_cons, List.lookup_append, Option.or_assoc]
      by_cases h : k = key <;> simp [List.lookup_cons, hbeq, h]
  rw [ofList, hfold empty]
  exact Option.or_none

theorem mem_of_find?_ofList {entries : List (String × α)} {k : String} {value : α}
    (h : (ofList entries).find? k = some value) : (k, value) ∈ entries := by
  rw [find?_ofList] at h
  obtain ⟨front, back, hsplit, -⟩ := List.lookup_eq_some_iff.mp h
  rw [← List.mem_reverse, hsplit]
  exact List.mem_append_right _ List.mem_cons_self

theorem eq_of_entries {m n : KeyMap α} (h : m.entries = n.entries) : m = n := by
  cases m
  cases n
  cases h
  rfl

theorem keys_nodup (m : KeyMap α) : m.keys.Nodup := by
  rw [keys, List.Nodup, List.pairwise_map]
  refine m.ascending.imp fun {a b} hlt heq => ?_
  exact String.lt_irrefl _ (heq ▸ hlt)

theorem place_perm {key : String} {entries : List (String × α)} (h : key ∉ entries.map Prod.fst)
    (value : α) : (place key value entries).Perm ((key, value) :: entries) := by
  induction entries with
  | nil => exact .rfl
  | cons e entries ih =>
    obtain ⟨hhead, htail⟩ := not_or.mp fun hmem => h (List.mem_cons.mpr hmem)
    rw [place]
    split
    · exact .rfl
    · exact ((ih htail).cons e).trans (.swap ..)

/-- Entries without a repeated key are those of their map. -/
theorem ofList_perm {entries : List (String × α)} (h : (entries.map Prod.fst).Nodup) :
    (ofList entries).entries.Perm entries := by
  have hfold : ∀ (back : List (String × α)) (m : KeyMap α),
      ((m.entries ++ back).map Prod.fst).Nodup →
      (back.foldl (fun m e => m.insert e.1 e.2) m).entries.Perm (m.entries ++ back) := by
    intro back
    induction back with
    | nil => intro m _; rw [List.append_nil]; exact .rfl
    | cons e back ih =>
      intro m h
      have hnew : e.1 ∉ m.entries.map Prod.fst := by
        rw [List.map_append, List.map_cons] at h
        exact fun hmem => (List.nodup_append.mp h).2.2 _ hmem _ List.mem_cons_self rfl
      have hinsert : ((m.insert e.1 e.2).entries ++ back).Perm (m.entries ++ e :: back) :=
        ((place_perm hnew e.2).append_right back).trans List.perm_middle.symm
      rw [List.foldl_cons]
      exact (ih _ ((hinsert.map Prod.fst).nodup_iff.mpr h)).trans hinsert
  exact hfold entries empty h

/-- A map is the map of its entries in any order. -/
theorem ofList_eq_of_perm {m : KeyMap α} {entries : List (String × α)}
    (h : entries.Perm m.entries) : ofList entries = m := by
  refine eq_of_entries (List.Perm.eq_of_pairwise ?_ (ofList entries).ascending m.ascending
    ((ofList_perm ((h.map Prod.fst).nodup_iff.mpr m.keys_nodup)).trans h))
  exact fun a b _ _ hab hba => absurd hba (String.lt_asymm hab)

end KeyMap
end Zpl
