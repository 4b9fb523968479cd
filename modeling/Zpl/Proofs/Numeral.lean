import Mathlib.Data.List.Induction
import Mathlib.Data.Nat.Digits.Defs
import Zpl.Proofs.Word

/-! Integers in parameters. A numeral is at most one sign and at least one digit, each of which
counts by its place, however many there are (`readInt32?_eq_some_iff`). Up to white space, leading
zeros and an optional sign, an integer has one numeral (`numeral_iff`). A parameter that is the
numeral of a 32-bit integer is read as just that one, and any other as the default
(`intOr_exact`). -/

namespace Zpl

namespace Text

/-! ## Digits -/

def digitValue (c : Char) : Nat :=
  c.toNat - '0'.toNat

/-- The number that digits stand for, each by its place. -/
def digitsValue (ds : List Char) : Nat :=
  Nat.ofDigits 10 (ds.reverse.map digitValue)

theorem digitsValue_concat (ds : List Char) (c : Char) :
    digitsValue (ds ++ [c]) = 10 * digitsValue ds + digitValue c := by
  rw [digitsValue, digitsValue, List.reverse_concat, List.map_cons, Nat.ofDigits_cons]
  exact Nat.add_comm _ _

/-- From the left, what has been read is worth ten times as much with each digit. -/
theorem ofDigitChars_eq (ds : List Char) : Nat.ofDigitChars 10 ds 0 = digitsValue ds := by
  induction ds using List.reverseRecOn with
  | nil => rfl
  | append_singleton ds c ih =>
    rw [Nat.ofDigitChars_append, ih, digitsValue_concat]
    rfl

theorem readNat?_eq_some_iff {ds : List Char} {n : Nat} :
    readNat? ds = some n ↔ IsDigits ds ∧ digitsValue ds = n := by
  simp only [readNat?, ofDigitChars_eq, IsDigits, Option.ite_none_right_eq_some, Option.some.injEq,
    Bool.and_eq_true, Bool.not_eq_true', List.isEmpty_eq_false_iff, List.all_eq_true]

theorem digitValue_lt {c : Char} (h : c.isDigit) : digitValue c < 10 := by
  obtain ⟨-, hhigh⟩ : 48 ≤ c.toNat ∧ c.toNat ≤ 57 := Char.isDigit_iff_toNat.mp h
  show c.toNat - 48 < 10
  omega

theorem toDigits_digitValue {c : Char} (h : c.isDigit) : Nat.toDigits 10 (digitValue c) = [c] := by
  obtain ⟨hlow, -⟩ : 48 ≤ c.toNat ∧ c.toNat ≤ 57 := Char.isDigit_iff_toNat.mp h
  have hchar : (digitValue c).digitChar = c := by
    apply Char.toNat_inj.mp
    rw [Nat.toNat_digitChar_of_lt_ten (digitValue_lt h)]
    show 48 + (c.toNat - 48) = c.toNat
    omega
  rw [Nat.toDigits_of_lt_base (digitValue_lt h), hchar]

/-- Digits are zeros and then the digits that their value is printed with. -/
theorem IsDigits.exists_zeros {ds : List Char} (h : IsDigits ds) :
    ∃ zeros, ds = List.replicate zeros '0' ++ Nat.toDigits 10 (digitsValue ds) := by
  obtain ⟨hne, hdigit⟩ := h
  induction ds using List.reverseRecOn with
  | nil => exact absurd rfl hne
  | append_singleton ds c ih =>
    have hc : c.isDigit := hdigit c (by simp)
    rw [digitsValue_concat]
    by_cases hds : ds = []
    · subst hds
      have hvalue : 10 * digitsValue [] + digitValue c = digitValue c := Nat.zero_add _
      exact ⟨0, by rw [hvalue, toDigits_digitValue hc]; rfl⟩
    obtain ⟨zeros, hzeros⟩ := ih hds fun d hd => hdigit d (by simp [hd])
    rcases Nat.eq_zero_or_pos (digitsValue ds) with hzero | hpos
    · -- only zeros so far, and the one that zero is printed as is a leading zero too
      rw [hzero, Nat.toDigits_zero, ← List.replicate_succ'] at hzeros
      refine ⟨zeros + 1, ?_⟩
      rw [hzero, Nat.mul_zero, Nat.zero_add, toDigits_digitValue hc, ← hzeros]
    · refine ⟨zeros, ?_⟩
      rw [← Nat.toDigits_append_toDigits (by decide) hpos (digitValue_lt hc),
        toDigits_digitValue hc, ← List.append_assoc, ← hzeros]

theorem isDigits_zeros (zeros n : Nat) :
    IsDigits (List.replicate zeros '0' ++ Nat.toDigits 10 n) := by
  refine ⟨by simp [Nat.toDigits_ne_nil], fun c hc => ?_⟩
  rcases List.mem_append.mp hc with hc | hc
  · obtain rfl := (List.mem_replicate.mp hc).2
    rfl
  · exact Nat.isDigit_of_mem_toDigits (by decide) (by decide) hc

theorem digitsValue_zeros (zeros n : Nat) :
    digitsValue (List.replicate zeros '0' ++ Nat.toDigits 10 n) = n := by
  rw [← ofDigitChars_eq]
  induction zeros with
  | zero => exact Nat.ofDigitChars_ten_toDigits
  | succ zeros ih =>
    rw [List.replicate_succ, List.cons_append, Nat.ofDigitChars_cons]
    exact ih

/-! ## Numerals -/

/-- The text is a numeral of the integer: at most one sign, and digits. -/
inductive Numeral : List Char → Int → Prop where
  | plain {ds} : IsDigits ds → Numeral ds (digitsValue ds)
  | plus {ds} : IsDigits ds → Numeral ('+' :: ds) (digitsValue ds)
  | minus {ds} : IsDigits ds → Numeral ('-' :: ds) (-digitsValue ds)

/-- The signs that an integer can be written with. Zero has both. -/
inductive SignOf : Int → List Char → Prop where
  | none {n} : 0 ≤ n → SignOf n []
  | plus {n} : 0 ≤ n → SignOf n ['+']
  | minus {n} : n ≤ 0 → SignOf n ['-']

/-- Digits behind a sign, where `f` is what the sign does to their value. -/
theorem readNat?_map_eq_some_iff {ds : List Char} {f : Int → Int} {n : Int} :
    ((readNat? ds).map fun k => f k) = some n ↔ IsDigits ds ∧ f (digitsValue ds) = n := by
  cases hread : readNat? ds with
  | none =>
    have hno : ¬IsDigits ds := fun h => by simpa [hread] using readNat?_eq_some_iff.mpr ⟨h, rfl⟩
    simp [hno]
  | some k =>
    obtain ⟨hdigits, rfl⟩ := readNat?_eq_some_iff.mp hread
    simp [hdigits]

theorem readInt?_eq_some_iff {cs : List Char} {n : Int} : readInt? cs = some n ↔ Numeral cs n := by
  constructor
  · intro h
    unfold readInt? at h
    split at h
    · obtain ⟨hdigits, rfl⟩ := readNat?_map_eq_some_iff.mp h
      exact .minus hdigits
    · obtain ⟨hdigits, rfl⟩ := readNat?_map_eq_some_iff.mp h
      exact .plus hdigits
    · obtain ⟨hdigits, rfl⟩ := readNat?_map_eq_some_iff.mp h
      exact .plain hdigits
  · intro h
    cases h with
    | plain hdigits =>
      unfold readInt?
      split
      · exact absurd (hdigits.2 '-' (by simp)) (by decide)
      · exact absurd (hdigits.2 '+' (by simp)) (by decide)
      · exact readNat?_map_eq_some_iff.mpr ⟨hdigits, rfl⟩
    | plus hdigits => exact readNat?_map_eq_some_iff.mpr ⟨hdigits, rfl⟩
    | minus hdigits => exact readNat?_map_eq_some_iff.mpr ⟨hdigits, rfl⟩

theorem Numeral.eq {cs : List Char} {m n : Int} (hm : Numeral cs m) (hn : Numeral cs n) : m = n :=
  Option.some.inj ((readInt?_eq_some_iff.mpr hm).symm.trans (readInt?_eq_some_iff.mpr hn))

/-- An integer has a numeral for each of its signs and any number of leading zeros. -/
theorem numeral_iff {cs : List Char} {n : Int} :
    Numeral cs n ↔ ∃ sign zeros, SignOf n sign ∧
      cs = sign ++ (List.replicate zeros '0' ++ Nat.toDigits 10 n.natAbs) := by
  constructor
  · intro h
    cases h with
    | plain hdigits =>
      obtain ⟨zeros, hzeros⟩ := hdigits.exists_zeros
      exact ⟨[], zeros, .none (by omega), hzeros⟩
    | plus hdigits =>
      obtain ⟨zeros, hzeros⟩ := hdigits.exists_zeros
      exact ⟨['+'], zeros, .plus (by omega), congrArg ('+' :: ·) hzeros⟩
    | @minus ds hdigits =>
      obtain ⟨zeros, hzeros⟩ := hdigits.exists_zeros
      have habs : (-(digitsValue ds : Int)).natAbs = digitsValue ds := by omega
      exact ⟨['-'], zeros, .minus (by omega), by rw [habs]; exact congrArg ('-' :: ·) hzeros⟩
  · rintro ⟨sign, zeros, hsign, rfl⟩
    have hdigits := isDigits_zeros zeros n.natAbs
    have hvalue := digitsValue_zeros zeros n.natAbs
    cases hsign with
    | none hn =>
      have hnumeral := Numeral.plain hdigits
      rwa [hvalue, Int.natAbs_of_nonneg hn] at hnumeral
    | plus hn =>
      have hnumeral := Numeral.plus hdigits
      rwa [hvalue, Int.natAbs_of_nonneg hn] at hnumeral
    | minus hn =>
      have hnumeral := Numeral.minus hdigits
      rwa [hvalue, Int.ofNat_natAbs_of_nonpos hn, Int.neg_neg] at hnumeral

theorem Numeral.not_blank {cs : List Char} {n : Int} (h : Numeral cs n) :
    ∀ c ∈ cs, isBlank c = false := by
  have hblank {ds : List Char} (hdigits : IsDigits ds) : ∀ c ∈ ds, isBlank c = false :=
    fun c hc => (plain_of_isDigit (hdigits.2 c hc)).2.2
  cases h with
  | plain hdigits => exact hblank hdigits
  | plus hdigits => exact List.forall_mem_cons.mpr ⟨rfl, hblank hdigits⟩
  | minus hdigits => exact List.forall_mem_cons.mpr ⟨rfl, hblank hdigits⟩

/-- An integer counts if 32 bits hold it, and does not change. -/
theorem int32?_eq_some_iff {i : Int} {n : Int32} : int32? i = some n ↔ n.toInt = i := by
  have hmin : Int32.minValue.toInt = -2 ^ 31 := rfl
  have hmax : Int32.maxValue.toInt = 2 ^ 31 - 1 := rfl
  unfold int32?
  constructor
  · intro h
    obtain ⟨⟨hlow, hhigh⟩, hn⟩ := Option.ite_none_right_eq_some.mp h
    obtain rfl := Option.some.inj hn
    exact Int32.toInt_ofInt_of_le (hmin ▸ hlow) (by omega)
  · rintro rfl
    rw [if_pos ⟨n.minValue_le_toInt, n.toInt_le⟩, Int32.ofInt_toInt]

/-- Whatever the number of its digits, a numeral is read as what it stands for, or not at all. -/
theorem readInt32?_eq_some_iff {cs : List Char} {n : Int32} :
    readInt32? cs = some n ↔ Numeral cs n.toInt := by
  rw [readInt32?, Option.bind_eq_some_iff]
  simp only [readInt?_eq_some_iff, int32?_eq_some_iff, exists_eq_right']

end Text

/-! ## Parameters -/

namespace Parameter

/-- The value is a numeral of the integer, with white space around it or without. -/
def Spells (value : String) (n : Int) : Prop :=
  ∃ cs, Text.Trims value.toList cs ∧ Text.Numeral cs n

theorem Spells.eq {value : String} {m n : Int} (hm : Spells value m) (hn : Spells value n) :
    m = n := by
  obtain ⟨cs, htrims, hnumeral⟩ := hm
  obtain ⟨ds, htrims', hnumeral'⟩ := hn
  obtain rfl := htrims.eq.symm.trans htrims'.eq
  exact hnumeral.eq hnumeral'

/-- The value is read as the integer in a slot of any default. -/
def Accepts (value : Option String) (n : Int32) : Prop :=
  ∀ default, intOr value default = n

theorem int?_eq_some_iff {value : String} {n : Int32} :
    int? value = some n ↔ Spells value n.toInt := by
  simp only [int?, Spells, Text.readInt32?_eq_some_iff, Text.trims_iff, exists_eq_left']

theorem accepts_iff {value : Option String} {n : Int32} :
    Accepts value n ↔ value.bind int? = some n := by
  constructor
  · intro h
    cases hread : value.bind int? with
    | none =>
      have hdefault : ∀ default, default = n := by simpa [Accepts, intOr, hread] using h
      have hsame : (0 : Int32) = 1 := (hdefault 0).trans (hdefault 1).symm
      exact absurd hsame (by decide)
    | some k =>
      have hk : k = n := by simpa [intOr, hread] using h 0
      rw [hk]
  · intro h default
    rw [intOr, h]
    rfl

/-- A value spells an integer with a sign of it, leading zeros and white space around. -/
theorem spells_iff {value : String} {n : Int} :
    Spells value n ↔ ∃ front sign zeros back, (∀ c ∈ front ++ back, Text.isBlank c) ∧
      Text.SignOf n sign ∧ value.toList =
        front ++ (sign ++ (List.replicate zeros '0' ++ Nat.toDigits 10 n.natAbs)) ++ back := by
  constructor
  · rintro ⟨cs, htrims, hnumeral⟩
    obtain ⟨front, back, hvalue, hblank⟩ := htrims.around
    obtain ⟨sign, zeros, hsign, rfl⟩ := Text.numeral_iff.mp hnumeral
    exact ⟨front, sign, zeros, back, hblank, hsign, hvalue⟩
  · rintro ⟨front, sign, zeros, back, hblank, hsign, hvalue⟩
    have hnumeral := Text.numeral_iff.mpr ⟨sign, zeros, hsign, rfl⟩
    exact ⟨_, hvalue ▸ .plain hblank hnumeral.not_blank, hnumeral⟩

end Parameter

/-- A box is rounded as its fifth parameter says, and not at all if that says no integer. -/
theorem Rule.graphicBox_parses {r : Reader} {marker word : Token} {ts : List Token}
    (hahead : r.cursor.ahead = marker :: word :: ts) (hmarker : marker.kind = .marker)
    (hword : word.kind = .code) :
    ∃ c s width height thickness color rounding, graphicBox.parse r = (.ok c, s) ∧
      c.kind = .graphicBox width height thickness color rounding ∧
      ∀ n, rounding = some n ↔
        Parameter.Accepts (slot (ts.takeWhile (·.kind == .parameter)) 4) n := by
  obtain ⟨ps, rest, rfl, hps, hrest⟩ := exists_run (· == .parameter) ts
  have htake : (ps ++ rest).takeWhile (·.kind == .parameter) = ps := takeWhile_run hps hrest
  have hpasses : (graphicBox ⟨word.value, marker.position⟩).Passes ps rest _ [] [] :=
    simple_passes _ (by simpa using hps) hrest
  refine ⟨_, _, _, _, _, _, _, parse_passes hpasses hahead hmarker hword, rfl, fun n => ?_⟩
  rw [htake, Parameter.accepts_iff]

namespace Parameter

/-- A parameter is read as the integer that its text without white space is a numeral of, exactly
and at any length, if 32 bits hold it, and as the default in every other case. So an integer is
read from each text that has it with a sign of it, any leading zeros and white space around, and
from no other. The rounding of a box is there where its parameter is read so, with that value. -/
theorem intOr_exact (value : String) (default : Int32) :
    (∀ i, Spells value i → -2 ^ 31 ≤ i → i ≤ 2 ^ 31 - 1 →
      (intOr (some value) default).toInt = i) ∧
    ((∀ i, Spells value i → ¬(-2 ^ 31 ≤ i ∧ i ≤ 2 ^ 31 - 1)) →
      intOr (some value) default = default) ∧
    intOr none default = default ∧
    (∀ n : Int32, Accepts (some value) n ↔
      ∃ front sign zeros back, (∀ c ∈ front ++ back, Text.isBlank c) ∧
        Text.SignOf n.toInt sign ∧ value.toList =
          front ++ (sign ++ (List.replicate zeros '0' ++ Nat.toDigits 10 n.toInt.natAbs)) ++ back) ∧
    ∀ (r : Reader) (marker word : Token) (ts : List Token),
      r.cursor.ahead = marker :: word :: ts → marker.kind = .marker → word.kind = .code →
      ∃ c s width height thickness color rounding, Rule.graphicBox.parse r = (.ok c, s) ∧
        c.kind = .graphicBox width height thickness color rounding ∧
        ∀ n, rounding = some n ↔
          Accepts (Rule.slot (ts.takeWhile (·.kind == .parameter)) 4) n := by
  refine ⟨fun i hspells hlow hhigh => ?_, fun hno => ?_, rfl, fun n => ?_,
    fun r marker word ts hahead => Rule.graphicBox_parses hahead⟩
  · have hvalue : (Int32.ofInt i).toInt = i := Int32.toInt_ofInt_of_le hlow (by omega)
    have hread : int? value = some (Int32.ofInt i) :=
      int?_eq_some_iff.mpr (hvalue.symm ▸ hspells)
    rw [intOr, Option.bind_some, hread, Option.getD_some, hvalue]
  · have hread : int? value = none := by
      rw [Option.eq_none_iff_forall_ne_some]
      intro n hn
      exact hno n.toInt (int?_eq_some_iff.mp hn) ⟨n.le_toInt, Int.le_sub_one_of_lt n.toInt_lt⟩
    rw [intOr, Option.bind_some, hread, Option.getD_none]
  · rw [accepts_iff, Option.bind_some, int?_eq_some_iff, spells_iff]

/-- The least integer of 32 bits behind zeros and between white space, and the first one that 32
bits do not hold. -/
theorem intOr_exact_bounds :
    let low := "\u3000-0002147483648\u00A0"
    let high := "+2147483648"
    let t : TokenKind → String → Token := fun kind text => ⟨kind, text, .start, text⟩
    let behind := ["9", "", "x", "W", low, high].map (t .parameter)
    let r : Reader := .ofStream "" ⟨t .marker "^" :: t .code "GB" :: behind, []⟩
    (Spells low (-2147483648) ∧ (intOr (some low) 7).toInt = -2147483648) ∧
    ((∀ i, Spells high i → ¬(-2 ^ 31 ≤ i ∧ i ≤ 2 ^ 31 - 1)) ∧ intOr (some high) 7 = 7) ∧
    ∃ c s width height thickness color, Rule.graphicBox.parse r = (.ok c, s) ∧
      c.kind = .graphicBox width height thickness color (some (-2147483648)) := by
  intro low high t behind r
  have hblank : ∀ c ∈ ['\u3000'] ++ ['\u00A0'], Text.isBlank c :=
    List.forall_mem_cons.mpr ⟨rfl, List.forall_mem_singleton.mpr rfl⟩
  have hlow : Spells low (-2147483648) :=
    spells_iff.mpr ⟨_, ['-'], 3, _, hblank, .minus (by decide), by decide⟩
  have hhigh : Spells high 2147483648 :=
    spells_iff.mpr ⟨[], ['+'], 0, [], List.forall_mem_nil _, .plus (by decide), by decide⟩
  have hbeyond : ∀ i, Spells high i → ¬(-2 ^ 31 ≤ i ∧ i ≤ 2 ^ 31 - 1) := by
    intro i hi
    rw [hi.eq hhigh]
    decide
  obtain ⟨exact, -, -, forms, box⟩ := intOr_exact low 7
  obtain ⟨-, beyond, -⟩ := intOr_exact high 7
  refine ⟨⟨hlow, exact _ hlow (by decide) (by decide)⟩, ⟨hbeyond, beyond hbeyond⟩, ?_⟩
  obtain ⟨c, s, width, height, thickness, color, rounding, hparse, hkind, hrounding⟩ :=
    box r _ _ _ rfl rfl rfl
  have haccepts : Accepts (some low) (-2147483648) := (forms _).mpr (spells_iff.mp hlow)
  obtain rfl := (hrounding (-2147483648)).mpr haccepts
  exact ⟨c, s, width, height, thickness, color, hparse, hkind⟩

end Parameter
end Zpl
