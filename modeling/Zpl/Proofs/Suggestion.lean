import Zpl.Registry

/-! Suggestions for unknown codes. A registered code is suggested if it is the only one near the
unknown code (`nearest?_eq_some_iff`). Near means as long in bytes, and different in exactly one
of the places that both have a character in (`isNear_iff`). Where the number of bytes tells the
number of characters, that is one substitution (`nearest?_substitution`); elsewhere it is not
(`nearest?_bytes`). -/

namespace Zpl

/-- A property holds of one element of a list if it holds in exactly one place. -/
theorem countP_eq_one_iff {α : Type} (p : α → Bool) (xs : List α) :
    xs.countP p = 1 ↔ ∃ n, ∀ i : Nat, (∃ x, xs[i]? = some x ∧ p x) ↔ i = n := by
  induction xs with
  | nil => simp
  | cons x xs ih =>
    by_cases hx : p x
    · -- the first place is the one, so there is none behind it
      have hnone : xs.countP p = 0 ↔ ∀ i : Nat, ¬ ∃ y, xs[i]? = some y ∧ p y := by
        rw [List.countP_eq_zero]
        constructor
        · rintro h i ⟨y, hy, hp⟩
          exact h y (List.mem_of_getElem? hy) hp
        · intro h y hy hp
          obtain ⟨i, hi⟩ := List.mem_iff_getElem?.mp hy
          exact h i ⟨y, hi, hp⟩
      rw [List.countP_cons_of_pos hx, Nat.add_eq_right, hnone]
      constructor
      · refine fun h => ⟨0, fun i => ?_⟩
        cases i with
        | zero => simp [hx]
        | succ i => simpa using h i
      · rintro ⟨n, hn⟩ i hi
        have hzero : 0 = n := (hn 0).mp ⟨x, rfl, hx⟩
        have hsucc : i + 1 = n := (hn (i + 1)).mp hi
        omega
    · rw [List.countP_cons_of_neg hx, ih]
      constructor
      · rintro ⟨n, hn⟩
        refine ⟨n + 1, fun i => ?_⟩
        cases i with
        | zero => simp [hx]
        | succ i => simpa using hn i
      · rintro ⟨n, hn⟩
        cases n with
        | zero => simpa [hx] using hn 0
        | succ n => exact ⟨n, fun i => by simpa using hn (i + 1)⟩

/-! ## Texts that differ in one place -/

namespace Text

/-- Both texts have a character in a place, and not the same one. -/
def Differ (a b : List Char) (i : Nat) : Prop :=
  ∃ c d, a[i]? = some c ∧ b[i]? = some d ∧ c ≠ d

/-- Two texts have equally many characters and differ in exactly one place. -/
structure OneSubstitution (a b : List Char) : Prop where
  length : a.length = b.length
  place : ∃ n, ∀ i : Nat, a[i]? ≠ b[i]? ↔ i = n

/-- Two texts are equally long in bytes and differ in exactly one of the places that both have. -/
structure Near (a b : List Char) : Prop where
  bytes : byteLength a = byteLength b
  place : ∃ n, ∀ i, Differ a b i ↔ i = n

theorem countP_zip_iff (a b : List Char) :
    (a.zip b).countP (fun (c, d) => c != d) = 1 ↔ ∃ n, ∀ i, Differ a b i ↔ i = n := by
  have hpair : ∀ i : Nat, (∃ x, (a.zip b)[i]? = some x ∧ (x.1 != x.2) = true) ↔ Differ a b i := by
    intro i
    simp [Differ, List.getElem?_zip_eq_some, and_assoc]
  simp only [countP_eq_one_iff, hpair]

/-- Texts with equally many characters differ where they do not have the same. -/
theorem differ_iff {a b : List Char} (h : a.length = b.length) (i : Nat) :
    Differ a b i ↔ a[i]? ≠ b[i]? := by
  by_cases hi : i < a.length
  · simp [Differ, hi, h ▸ hi]
  · have ha : a[i]? = none := List.getElem?_eq_none (Nat.not_lt.mp hi)
    have hb : b[i]? = none := List.getElem?_eq_none (h ▸ Nat.not_lt.mp hi)
    simp [Differ, ha, hb]

theorem oneSubstitution_iff {a b : List Char} :
    OneSubstitution a b ↔
      a.length = b.length ∧ (a.zip b).countP (fun (c, d) => c != d) = 1 := by
  have hplace (h : a.length = b.length) : (a.zip b).countP (fun (c, d) => c != d) = 1 ↔
      ∃ n, ∀ i : Nat, a[i]? ≠ b[i]? ↔ i = n := by
    simp only [countP_zip_iff, differ_iff h]
  exact ⟨fun ⟨hlength, h⟩ => ⟨hlength, (hplace hlength).mpr h⟩,
    fun ⟨hlength, h⟩ => ⟨hlength, (hplace hlength).mp h⟩⟩

instance (a b : List Char) : Decidable (OneSubstitution a b) :=
  decidable_of_iff _ oneSubstitution_iff.symm

end Text

/-! ## The nearest code -/

namespace Registry

variable {r : Registry} {code known : String}

theorem isNear_iff : isNear known code ↔ Text.Near known.toList code.toList := by
  simp only [isNear, Bool.and_eq_true, beq_iff_eq, Text.countP_zip_iff]
  exact ⟨fun ⟨hbytes, hplace⟩ => ⟨hbytes, hplace⟩, fun ⟨hbytes, hplace⟩ => ⟨hbytes, hplace⟩⟩

/-- No code is near itself, since it differs from itself nowhere. -/
theorem isNear_self (code : String) : isNear code code = false := by
  rw [Bool.eq_false_iff]
  intro h
  obtain ⟨n, hn⟩ := (isNear_iff.mp h).place
  obtain ⟨c, d, hc, hd, hne⟩ := (hn n).mpr rfl
  exact hne (Option.some.inj (hc.symm.trans hd))

/-- A code is suggested if it is the only registered one that is near. -/
theorem nearest?_eq_some_iff : r.nearest? code = some known ↔
    known ∈ r.keys ∧ isNear known code ∧ ∀ other ∈ r.keys, isNear other code → other = known := by
  have hmem : ∀ k, k ∈ r.keys.filter (isNear · code) ↔ k ∈ r.keys ∧ isNear k code :=
    fun _ => List.mem_filter
  have hnodup : (r.keys.filter (isNear · code)).Nodup := r.keys_nodup.sublist List.filter_sublist
  have honly : (known ∈ r.keys ∧ isNear known code ∧
      ∀ other ∈ r.keys, isNear other code → other = known) ↔
        known ∈ r.keys.filter (isNear · code) ∧
          ∀ other ∈ r.keys.filter (isNear · code), other = known := by
    simp only [hmem, and_imp, and_assoc]
  rw [honly, nearest?]
  generalize r.keys.filter (isNear · code) = found at hnodup
  match found with
  | [] => simp
  | [k] => simp [eq_comm]
  | k :: l :: more =>
    have hne : k ≠ l := fun heq => by simp [heq] at hnodup
    simp only [reduceCtorEq, false_iff, not_and]
    intro _ hall
    exact hne ((hall k (by simp)).trans (hall l (by simp)).symm)

/-- Where the number of bytes tells the number of characters, near is one substitution. -/
theorem isNear_iff_oneSubstitution
    (h : Text.byteLength known.toList = Text.byteLength code.toList ↔
      known.length = code.length) :
    isNear known code ↔ Text.OneSubstitution known.toList code.toList := by
  rw [isNear, Bool.and_eq_true, beq_iff_eq, beq_iff_eq, h, Text.oneSubstitution_iff,
    String.length_toList, String.length_toList]

/-- The suggestion is the one registered code that is as long in bytes and differs in one of
the places both have, so it is never the code itself. Where the number of bytes tells the number
of characters, it is the one registered code that is a substitution away. -/
theorem nearest?_substitution (r : Registry) (code : String) :
    (∀ known, r.nearest? code = some known ↔ known ∈ r.keys ∧
      Text.Near known.toList code.toList ∧
      ∀ other ∈ r.keys, Text.Near other.toList code.toList → other = known) ∧
    r.nearest? code ≠ some code ∧
    ((∀ known ∈ r.keys, Text.byteLength known.toList = Text.byteLength code.toList ↔
        known.length = code.length) →
      ∀ known, r.nearest? code = some known ↔ known ∈ r.keys ∧
        Text.OneSubstitution known.toList code.toList ∧
        ∀ other ∈ r.keys, Text.OneSubstitution other.toList code.toList → other = known) := by
  refine ⟨fun known => ?_, fun hself => ?_, fun hbytes known => ?_⟩
  · rw [nearest?_eq_some_iff]
    simp only [isNear_iff]
  · obtain ⟨-, hnear, -⟩ := nearest?_eq_some_iff.mp hself
    rw [isNear_self] at hnear
    cases hnear
  · have hnear : ∀ k ∈ r.keys,
        (isNear k code ↔ Text.OneSubstitution k.toList code.toList) :=
      fun k hk => isNear_iff_oneSubstitution (hbytes k hk)
    rw [nearest?_eq_some_iff]
    constructor
    · rintro ⟨hknown, hsub, hunique⟩
      exact ⟨hknown, (hnear known hknown).mp hsub,
        fun other hother h => hunique other hother ((hnear other hother).mpr h)⟩
    · rintro ⟨hknown, hsub, hunique⟩
      exact ⟨hknown, (hnear known hknown).mpr hsub,
        fun other hother h => hunique other hother ((hnear other hother).mp h)⟩

/-- Of two registered codes that share all but one letter with a code, the one with as many
letters is suggested. -/
theorem nearest?_substitution_letters :
    let r : Registry := .ofList [("éA", Rule.labelStart), ("éAB", Rule.labelEnd)]
    (∀ known ∈ r.keys, Text.byteLength known.toList = Text.byteLength "éZ".toList ↔
      known.length = "éZ".length) ∧
    r.nearest? "éZ" = some "éA" ∧
      Text.OneSubstitution "éA".toList "éZ".toList ∧ r.nearest? "éZ" ≠ some "éZ" := by
  intro r
  have hbytes : ∀ known ∈ r.keys, Text.byteLength known.toList = Text.byteLength "éZ".toList ↔
      known.length = "éZ".length := by decide +kernel
  obtain ⟨-, hself, hnearest⟩ := nearest?_substitution r "éZ"
  have hsub : Text.OneSubstitution "éA".toList "éZ".toList := by decide +kernel
  exact ⟨hbytes, (hnearest hbytes "éA").mpr ⟨by decide +kernel, hsub, by decide +kernel⟩, hsub,
    hself⟩

/-- A code of one letter in two bytes is suggested for a code of two letters, and a code that
differs from it in one letter is not. -/
theorem nearest?_bytes :
    (let r : Registry := .ofList [("é", Rule.labelStart)]
     r.nearest? "ab" = some "é" ∧ ¬ Text.OneSubstitution "é".toList "ab".toList) ∧
    (let r : Registry := .ofList [("aé", Rule.labelStart)]
     r.nearest? "ab" = none ∧ "aé" ∈ r.keys ∧ Text.OneSubstitution "aé".toList "ab".toList ∧
       ∀ other ∈ r.keys, Text.OneSubstitution other.toList "ab".toList → other = "aé") := by
  decide +kernel

end Registry
end Zpl
