/-! White space, line breaks and trimming. White space is the Unicode property
White_Space, given by its ranges, so that text in any script is trimmed alike.
Trimming loses blanks only, and what is left has none at the trimmed end. -/

namespace Zpl.Text

/-- The code points with the property White_Space, as closed ranges. -/
def blankRanges : List (Nat × Nat) :=
  [(0x0009, 0x000D), (0x0020, 0x0020), (0x0085, 0x0085), (0x00A0, 0x00A0), (0x1680, 0x1680),
   (0x2000, 0x200A), (0x2028, 0x2029), (0x202F, 0x202F), (0x205F, 0x205F), (0x3000, 0x3000)]

def isBlank (c : Char) : Bool :=
  blankRanges.any fun (low, high) => low ≤ c.toNat && c.toNat ≤ high

/-- The two characters that break a line of source text. -/
def isLineBreak (c : Char) : Bool :=
  c == '\n' || c == '\r'

def trimStart (cs : List Char) : List Char :=
  cs.dropWhile isBlank

def trimEnd (cs : List Char) : List Char :=
  (cs.reverse.dropWhile isBlank).reverse

def trim (cs : List Char) : List Char :=
  trimEnd (trimStart cs)

/-- The blanks that `trimEnd` takes away. -/
def endBlanks (cs : List Char) : List Char :=
  (cs.reverse.takeWhile isBlank).reverse

theorem trimEnd_append_endBlanks (cs : List Char) : trimEnd cs ++ endBlanks cs = cs := by
  rw [trimEnd, endBlanks, ← List.reverse_append, List.takeWhile_append_dropWhile,
    List.reverse_reverse]

theorem endBlanks_blank {cs : List Char} {c : Char} (h : c ∈ endBlanks cs) : isBlank c := by
  have ht := List.mem_reverse.mp h
  exact List.all_eq_true.mp (List.all_takeWhile (p := isBlank) (l := cs.reverse)) c ht

theorem isBlank_of_isLineBreak {c : Char} (h : isLineBreak c) : isBlank c := by
  simp only [isLineBreak, Bool.or_eq_true, beq_iff_eq] at h
  rcases h with rfl | rfl <;> decide

end Zpl.Text
