/-! Decimal numerals. A signed numeral is an optional sign and at least one
ASCII digit; leading zeros are allowed and the value is exact at any length.
Label dimensions are 32-bit signed integers: a numeral outside that range is
no dimension, and a sum that leaves it stops at the bound. -/

namespace Zpl.Text

/-- The value of a non-empty run of ASCII digits. -/
def readNat? (ds : List Char) : Option Nat :=
  if !ds.isEmpty && ds.all Char.isDigit then some (Nat.ofDigitChars 10 ds 0) else none

def readInt? : List Char → Option Int
  | '-' :: ds => (readNat? ds).map fun n => -(n : Int)
  | '+' :: ds => (readNat? ds).map fun n => (n : Int)
  | ds => (readNat? ds).map fun n => (n : Int)

/-- The decimal form of an integer: no sign but a minus, no leading zeros. -/
def printInt : Int → List Char
  | .ofNat n => Nat.toDigits 10 n
  | .negSucc n => '-' :: Nat.toDigits 10 (n + 1)

/-- An integer as a 32-bit one, if it is in range. -/
def int32? (n : Int) : Option Int32 :=
  if Int32.minValue.toInt ≤ n ∧ n ≤ Int32.maxValue.toInt then some (Int32.ofInt n) else none

/-- An integer as the nearest 32-bit one. -/
def clampInt32 (n : Int) : Int32 :=
  Int32.ofInt (max Int32.minValue.toInt (min n Int32.maxValue.toInt))

theorem readNat?_toDigits (n : Nat) : readNat? (Nat.toDigits 10 n) = some n := by
  have hne : (Nat.toDigits 10 n).isEmpty = false := by simp [Nat.toDigits_ne_nil]
  have hall : (Nat.toDigits 10 n).all Char.isDigit := by
    rw [List.all_eq_true]
    exact fun c hc => Nat.isDigit_of_mem_toDigits (by decide) (by decide) hc
  simp [readNat?, hne, hall]

/-- Reading undoes printing. -/
theorem readInt?_printInt (n : Int) : readInt? (printInt n) = some n := by
  cases n with
  | ofNat n =>
    have hdigit : ∀ c ∈ Nat.toDigits 10 n, c.isDigit := fun c hc =>
      Nat.isDigit_of_mem_toDigits (by decide) (by decide) hc
    simp only [printInt]
    unfold readInt?
    split
    · next h => exact absurd (hdigit '-' (h ▸ List.mem_cons_self)) (by decide)
    · next h => exact absurd (hdigit '+' (h ▸ List.mem_cons_self)) (by decide)
    · simp [readNat?_toDigits]
  | negSucc n =>
    simp only [printInt, readInt?, readNat?_toDigits]
    rfl

def readInt32? (cs : List Char) : Option Int32 :=
  (readInt? cs).bind int32?

end Zpl.Text
