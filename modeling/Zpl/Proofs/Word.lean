import Zpl.Grammar.Builtin
import Zpl.Proofs.Phrase

/-! Parameters as they are written. A word is a text that is one parameter wherever it
stands; words with commas between them are read as those words, and each word that a
typed field is written as is read back as the field. -/

namespace Zpl

/-- A text that is one parameter wherever it is written. -/
def IsWord (cs : List Char) : Prop :=
  cs ≠ [] ∧ ∀ c ∈ cs, c ≠ '^' ∧ c ≠ ',' ∧ Text.isBlank c = false

namespace Write

def integer (n : Int32) : List Char :=
  Text.printInt n.toInt

def flag (b : Bool) : List Char :=
  if b then ['Y'] else ['N']

/-- A line of parameters. -/
def line (words : List (List Char)) : List Char :=
  [','].intercalate words

end Write

/-! ## What is written is a word -/

/-- Digits and capital letters have their places in every word. -/
theorem plain_of_range {c : Char} (h : 48 ≤ c.toNat ∧ c.toNat ≤ 90) :
    c ≠ '^' ∧ c ≠ ',' ∧ Text.isBlank c = false := by
  refine ⟨?_, ?_, ?_⟩
  · rintro rfl
    exact absurd h.2 (by decide)
  · rintro rfl
    exact absurd h.1 (by decide)
  · simp only [Text.isBlank, List.any_eq_false]
    intro r hr
    have hr' : r.2 < 48 ∨ 90 < r.1 :=
      (by decide : ∀ r ∈ Text.blankRanges, r.2 < 48 ∨ 90 < r.1) r hr
    simp only [Bool.and_eq_true, decide_eq_true_eq]
    omega

theorem isWord_singleton {c : Char} (h : 48 ≤ c.toNat ∧ c.toNat ≤ 90) : IsWord [c] := by
  refine ⟨List.cons_ne_nil _ _, ?_⟩
  intro d hd
  obtain rfl := List.mem_singleton.mp hd
  exact plain_of_range h

theorem plain_of_isDigit {c : Char} (h : c.isDigit) : c ≠ '^' ∧ c ≠ ',' ∧ Text.isBlank c = false := by
  obtain ⟨hlow, hhigh⟩ : 48 ≤ c.toNat ∧ c.toNat ≤ 57 := Char.isDigit_iff_toNat.mp h
  exact plain_of_range ⟨hlow, by omega⟩

theorem isWord_integer (n : Int32) : IsWord (Write.integer n) := by
  have hdigits : ∀ k, ∀ c ∈ Nat.toDigits 10 k, c ≠ '^' ∧ c ≠ ',' ∧ Text.isBlank c = false :=
    fun _ _ hc => plain_of_isDigit (Nat.isDigit_of_mem_toDigits (by decide) (by decide) hc)
  unfold Write.integer
  cases n.toInt with
  | ofNat k => exact ⟨Nat.toDigits_ne_nil, hdigits k⟩
  | negSucc k => exact ⟨by simp [Text.printInt], List.forall_mem_cons.mpr ⟨by decide, hdigits _⟩⟩

theorem isWord_flag (b : Bool) : IsWord (Write.flag b) := by
  cases b with
  | false => exact isWord_singleton (by decide : 48 ≤ 'N'.toNat ∧ 'N'.toNat ≤ 90)
  | true => exact isWord_singleton (by decide : 48 ≤ 'Y'.toNat ∧ 'Y'.toNat ≤ 90)

theorem Orientation.isWord_letter (o : Orientation) : IsWord o.letter.toList := by
  cases o with
  | normal => exact isWord_singleton (by decide : 48 ≤ 'N'.toNat ∧ 'N'.toNat ≤ 90)
  | rotated => exact isWord_singleton (by decide : 48 ≤ 'R'.toNat ∧ 'R'.toNat ≤ 90)
  | inverted => exact isWord_singleton (by decide : 48 ≤ 'I'.toNat ∧ 'I'.toNat ≤ 90)
  | bottom => exact isWord_singleton (by decide : 48 ≤ 'B'.toNat ∧ 'B'.toNat ≤ 90)

theorem LineColor.isWord_letter (c : LineColor) : IsWord c.letter.toList := by
  cases c with
  | black => exact isWord_singleton (by decide : 48 ≤ 'B'.toNat ∧ 'B'.toNat ≤ 90)
  | white => exact isWord_singleton (by decide : 48 ≤ 'W'.toNat ∧ 'W'.toNat ≤ 90)

/-! ## Words are read back -/

theorem IsWord.trim {cs : List Char} (h : IsWord cs) : Text.trim cs = cs := by
  have htrims : Text.Trims ([] ++ cs ++ []) cs :=
    .plain (List.forall_mem_nil _) fun c hc => (h.2 c hc).2.2
  rw [List.nil_append, List.append_nil] at htrims
  exact htrims.eq

theorem IsWord.trimmed {cs : List Char} (h : IsWord cs) :
    Parameter.trimmed (.ofList cs) = .ofList cs := by
  rw [Parameter.trimmed, String.toList_ofList, h.trim]

theorem int?_integer (n : Int32) : Parameter.int? (.ofList (Write.integer n)) = some n := by
  rw [Parameter.int?, String.toList_ofList, (isWord_integer n).trim, Write.integer,
    Text.readInt32?, Text.readInt?_printInt, Option.bind_some, Text.int32?,
    if_pos ⟨n.minValue_le_toInt, n.toInt_le⟩, Int32.ofInt_toInt]

theorem intOr_integer (n default : Int32) :
    Parameter.intOr (some (.ofList (Write.integer n))) default = n := by
  simp [Parameter.intOr, int?_integer]

theorem boolOr_flag (b default : Bool) :
    Parameter.boolOr (some (.ofList (Write.flag b))) default = b := by
  rw [Parameter.boolOr, Option.bind_some, Parameter.bool?, (isWord_flag b).trimmed]
  cases b <;> rfl

theorem orientationOr_letter (o : Orientation) :
    Parameter.orientationOr (some o.letter) = o := by
  cases o <;> rfl

theorem lineColorOr_letter (c : LineColor) : Parameter.lineColorOr (some c.letter) = c := by
  cases c <;> rfl

theorem splitFont_name (c : Char) (o : Orientation) :
    Rule.splitFont (some (.singleton c ++ o.letter)) = (.singleton c, o) := by
  simp [Rule.splitFont, orientationOr_letter]

/-! ## Lines of words -/

theorem IsWord.separates {cs : List Char} (h : IsWord cs) :
    ∀ c ∈ cs, Lexeme.separates .standard c = false := by
  intro c hc
  obtain ⟨-, hcomma, hblank⟩ := h.2 c hc
  simp [Lexeme.separates, Marks.standard, hcomma, hblank]

theorem Write.line_cons_cons (w v : List Char) (words : List (List Char)) :
    line (w :: v :: words) = w ++ ',' :: line (v :: words) := by
  simp [line, List.intercalate]

/-- A line of words is read as the words. -/
theorem view?_line {words : List (List Char)} (h : ∀ w ∈ words, IsWord w) :
    (Lexeme.parameterList .standard (Write.line words)).filterMap Lexeme.view? =
      words.map fun w => (.parameter, .ofList w) := by
  induction words with
  | nil => rfl
  | cons w words ih =>
    have hw := h w List.mem_cons_self
    cases words with
    | nil =>
      have hlist : Lexeme.parameterList .standard (w ++ []) = _ :=
        Lexeme.parameterList_word hw.1 hw.separates (by simp)
      have hline : Write.line [w] = w ++ [] := by simp [Write.line, List.intercalate]
      rw [hline, hlist]
      rfl
    | cons v words =>
      have hcomma : Lexeme.separates .standard ',' := rfl
      have hlist : Lexeme.parameterList .standard (w ++ ',' :: Write.line (v :: words)) = _ :=
        Lexeme.parameterList_word hw.1 hw.separates (by simpa using hcomma)
      have hrest := ih fun u hu => h u (List.mem_cons_of_mem _ hu)
      rw [Write.line_cons_cons, hlist, Lexeme.parameterList, if_pos hcomma]
      simp only [List.filterMap_cons, List.map_cons] at hrest ⊢
      rw [hrest]
      rfl

/-- A line of words runs up to the end of the line. -/
theorem isOperandChar_line {words : List (List Char)} (h : ∀ w ∈ words, IsWord w) :
    ∀ c ∈ Write.line words, Lexeme.isOperandChar .standard c := by
  induction words with
  | nil => simp [Write.line, List.intercalate]
  | cons w words ih =>
    have hw : ∀ c ∈ w, Lexeme.isOperandChar .standard c := by
      intro c hc
      obtain ⟨hmarker, -, hblank⟩ := (h w List.mem_cons_self).2 c hc
      rw [Lexeme.isOperandChar_iff]
      refine ⟨hmarker, ?_⟩
      rw [Bool.eq_false_iff]
      intro hbreak
      rw [Text.isBlank_of_isLineBreak hbreak] at hblank
      cases hblank
    cases words with
    | nil => simpa [Write.line, List.intercalate] using hw
    | cons v words =>
      rw [Write.line_cons_cons]
      intro c hc
      rcases List.mem_append.mp hc with hc | hc
      · exact hw c hc
      rcases List.mem_cons.mp hc with rfl | hc
      · rfl
      · exact ih (fun u hu => h u (List.mem_cons_of_mem _ hu)) c hc

end Zpl
