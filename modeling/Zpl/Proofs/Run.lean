import Zpl.Text.Blank

/-! Runs at the start of a list, and white space at the ends of a text. The longest run of elements
with a property ends in front of one without it, and a list that is made of a run and of something
that begins without the property splits just there (`takeWhile_run`, `dropWhile_run`). So a text is
trimmed to the one text that has more white space around it and none at its ends (`trims_iff`). -/

namespace Zpl

section Runs

variable {α : Type} {p : α → Bool} {xs ys : List α}

/-- What is left behind the longest run begins without the property. -/
theorem head?_dropWhile {a : α} (h : (xs.dropWhile p).head? = some a) : p a = false := by
  have hstop := List.head?_dropWhile_not p xs
  rwa [h] at hstop

theorem takeWhile_run (hxs : ∀ a ∈ xs, p a) (hys : ∀ a, ys.head? = some a → p a = false) :
    (xs ++ ys).takeWhile p = xs := by
  rw [List.takeWhile_append_of_pos hxs]
  cases ys with
  | nil => simp
  | cons y ys => simp [hys y rfl]

theorem dropWhile_run (hxs : ∀ a ∈ xs, p a) (hys : ∀ a, ys.head? = some a → p a = false) :
    (xs ++ ys).dropWhile p = ys := by
  rw [List.dropWhile_append_of_pos hxs]
  cases ys with
  | nil => rfl
  | cons y ys => simp [hys y rfl]

end Runs

namespace Text

/-- A run of digits, which is not empty. -/
def IsDigits (ds : List Char) : Prop :=
  ds ≠ [] ∧ ∀ c ∈ ds, c.isDigit

/-! ## White space at the ends of a text -/

theorem getLast?_trimEnd {cs : List Char} {c : Char} (h : (trimEnd cs).getLast? = some c) :
    isBlank c = false := by
  rw [trimEnd, List.getLast?_reverse] at h
  exact head?_dropWhile h

theorem trimEnd_run {cs blanks : List Char} (hblanks : ∀ c ∈ blanks, isBlank c)
    (hcs : ∀ c, cs.getLast? = some c → isBlank c = false) : trimEnd (cs ++ blanks) = cs := by
  have hdrop : (blanks.reverse ++ cs.reverse).dropWhile isBlank = cs.reverse :=
    dropWhile_run (by simpa using hblanks) (by simpa using hcs)
  rw [trimEnd, List.reverse_append, hdrop, List.reverse_reverse]

theorem trimEnd_of_getLast? {cs : List Char} (h : ∀ c, cs.getLast? = some c → isBlank c = false) :
    trimEnd cs = cs := by
  have hrun := trimEnd_run (List.forall_mem_nil _) h
  rwa [List.append_nil] at hrun

/-- The text without the white space at its two ends. -/
structure Trims (text cs : List Char) : Prop where
  around : ∃ front back, text = front ++ cs ++ back ∧ ∀ c ∈ front ++ back, isBlank c
  starts : ∀ c, cs.head? = some c → isBlank c = false
  ends : ∀ c, cs.getLast? = some c → isBlank c = false

/-- A text that has no white space at all, with some around it. -/
theorem Trims.plain {front cs back : List Char} (hblank : ∀ c ∈ front ++ back, isBlank c)
    (hcs : ∀ c ∈ cs, isBlank c = false) : Trims (front ++ cs ++ back) cs :=
  ⟨⟨front, back, rfl, hblank⟩, fun c hc => hcs c (List.mem_of_head? hc),
    fun c hc => hcs c (List.mem_of_getLast? hc)⟩

theorem trim_trims (text : List Char) : Trims text (trim text) := by
  have hstart : text.takeWhile isBlank ++ trimStart text = text := List.takeWhile_append_dropWhile
  have hend : trim text ++ endBlanks (trimStart text) = trimStart text :=
    trimEnd_append_endBlanks (trimStart text)
  refine ⟨⟨text.takeWhile isBlank, endBlanks (trimStart text), ?_, ?_⟩, fun c hc => ?_,
    fun _ => getLast?_trimEnd⟩
  · rw [List.append_assoc, hend, hstart]
  · intro c hc
    rcases List.mem_append.mp hc with hc | hc
    · exact List.all_eq_true.mp (List.all_takeWhile (p := isBlank) (l := text)) c hc
    · exact endBlanks_blank hc
  · have hhead : (trimStart text).head? = some c := by
      rw [← hend, List.head?_append, hc]
      rfl
    exact head?_dropWhile hhead

/-- There is one way only to take the white space away. -/
theorem Trims.eq {text cs : List Char} (h : Trims text cs) : trim text = cs := by
  obtain ⟨front, back, rfl, hblank⟩ := h.around
  obtain ⟨hfront, hback⟩ := List.forall_mem_append.mp hblank
  cases cs with
  | nil =>
    have hnone : trimStart (front ++ back ++ []) = [] := dropWhile_run hblank nofun
    rw [List.append_nil] at hnone
    rw [List.append_nil, trim, hnone]
    rfl
  | cons c cs =>
    have hstart : trimStart (front ++ (c :: cs ++ back)) = c :: cs ++ back :=
      dropWhile_run hfront h.starts
    rw [List.append_assoc, trim, hstart, trimEnd_run hback h.ends]

theorem trims_iff {text cs : List Char} : Trims text cs ↔ trim text = cs :=
  ⟨Trims.eq, fun h => h ▸ trim_trims text⟩

end Text
end Zpl
