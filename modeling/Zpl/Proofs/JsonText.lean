import Zpl.Json.Read
import Zpl.Json.Write
import Zpl.Proofs.Run

/-! JSON text is read back. Whatever white space a layout puts between the parts of a
value, the reader passes over it, and it undoes each escape, each numeral and each level
of lists (`read?_write`). The bound of the reader counts nested calls, of which a value
needs no more than two for each character of its text. -/

namespace Zpl.Json

/-! ## White space -/

namespace Layout

/-- A layout that adds white space and nothing else. -/
structure Blank (l : Layout) : Prop where
  newline : ∀ depth, ∀ c ∈ l.newline depth, isSpace c
  colon : ∃ blanks, l.colon = ':' :: blanks ∧ ∀ c ∈ blanks, isSpace c

theorem compact_blank : compact.Blank :=
  ⟨fun _ _ hc => absurd hc List.not_mem_nil, [], rfl, fun _ hc => absurd hc List.not_mem_nil⟩

theorem pretty_blank : pretty.Blank := by
  refine ⟨fun depth => List.forall_mem_cons.mpr ⟨rfl, ?_⟩, [' '], rfl, ?_⟩
  · intro c hc
    rw [List.eq_of_mem_replicate hc]
    rfl
  · exact List.forall_mem_singleton.mpr rfl

end Layout

theorem skipSpace_append {blanks : List Char} (h : ∀ c ∈ blanks, isSpace c) (cs : List Char) :
    skipSpace (blanks ++ cs) = skipSpace cs :=
  List.dropWhile_append_of_pos h

theorem skipSpace_cons {c : Char} (h : isSpace c = false) (cs : List Char) :
    skipSpace (c :: cs) = c :: cs := by
  rw [skipSpace, List.dropWhile_cons, h]
  rfl

/-! ## Strings -/

theorem hexValue?_hexDigit : ∀ n < 16, hexValue? (hexDigit n) = some n := by
  decide

/-- The written form of a character is read as that character. -/
theorem readUnits_escape (c : Char) (cs : List Char) :
    readUnits (escape c ++ cs) =
      (readUnits cs).map fun (units, rest) => (c.toNat :: units, rest) := by
  have letter : ∀ e, e ≠ 'u' → unescape? e = some c → readUnits ('\\' :: e :: cs) =
      (readUnits cs).map fun (units, rest) => (c.toNat :: units, rest) := by
    intro e he hc
    rw [readUnits]
    · rw [hc]
      cases readUnits cs <;> rfl
    · intro _ _ _ _ _ h
      exact absurd h he
  unfold escape
  split
  · exact letter '"' (by decide) rfl
  · exact letter '\\' (by decide) rfl
  · exact letter 'b' (by decide) rfl
  · exact letter 'f' (by decide) rfl
  · exact letter 'n' (by decide) rfl
  · exact letter 'r' (by decide) rfl
  · exact letter 't' (by decide) rfl
  · next hquote hbackslash _ _ _ _ _ =>
    split
    · have hhigh := hexValue?_hexDigit (c.toNat / 16) (by omega)
      have hlow := hexValue?_hexDigit (c.toNat % 16) (by omega)
      have hzero : hexValue? '0' = some 0 := rfl
      have hunit : ((0 * 16 + 0) * 16 + c.toNat / 16) * 16 + c.toNat % 16 = c.toNat := by omega
      simp only [List.cons_append, List.nil_append, readUnits, hzero, hhigh, hlow]
      cases readUnits cs with
      | none => rfl
      | some found =>
        show some _ = some _
        rw [hunit]
    · next hlarge =>
      rw [List.singleton_append, readUnits, if_neg hlarge]
      · exact hquote
      · exact fun _ _ _ _ _ h _ => hbackslash h
      · exact fun _ _ h _ => hbackslash h

theorem not_surrogate (c : Char) :
    isHighSurrogate c.toNat = false ∧ isLowSurrogate c.toNat = false := by
  have hvalid : c.toNat < 0xD800 ∨ 0xDFFF < c.toNat ∧ c.toNat < 0x110000 := c.valid
  simp only [isHighSurrogate, isLowSurrogate, Bool.and_eq_false_iff, decide_eq_false_iff_not]
  omega

theorem charsOfUnits?_toNat (cs : List Char) : charsOfUnits? (cs.map Char.toNat) = some cs := by
  induction cs with
  | nil => rfl
  | cons c cs ih =>
    obtain ⟨hhigh, hlow⟩ := not_surrogate c
    cases cs with
    | nil => simp [charsOfUnits?, hhigh, hlow]
    | cons d cs =>
      rw [List.map_cons] at ih
      simp [charsOfUnits?, hhigh, hlow, ih]

theorem readString_write (s : String) (rest : List Char) :
    readString (s.toList.flatMap escape ++ '"' :: rest) = some (some s, rest) := by
  have hunits : ∀ cs : List Char,
      readUnits (cs.flatMap escape ++ '"' :: rest) = some (cs.map Char.toNat, rest) := by
    intro cs
    induction cs with
    | nil => rfl
    | cons c cs ih =>
      rw [List.flatMap_cons, List.append_assoc, readUnits_escape, ih]
      rfl
  simp [readString, hunits, charsOfUnits?_toNat]

/-! ## Numbers -/

/-- No number goes on here. -/
def EndsNumber (rest : List Char) : Prop :=
  ∀ c, rest.head? = some c → c.isDigit = false ∧ c ≠ '.' ∧ c ≠ 'e' ∧ c ≠ 'E'

/-- A fraction, which may be missing, and its digits. -/
inductive Fraction : List Char → List Char → Prop where
  | absent : Fraction [] []
  | digits {ds} : Text.IsDigits ds → Fraction ('.' :: ds) ds

/-- An exponent, which may be missing, and its value. -/
inductive Exponent : List Char → Option Int → Prop where
  | absent : Exponent [] none
  | plain {mark ds} : mark = 'e' ∨ mark = 'E' → Text.IsDigits ds →
      Exponent (mark :: ds) (some (Nat.ofDigitChars 10 ds 0))
  | plus {mark ds} : mark = 'e' ∨ mark = 'E' → Text.IsDigits ds →
      Exponent (mark :: '+' :: ds) (some (Nat.ofDigitChars 10 ds 0))
  | minus {mark ds} : mark = 'e' ∨ mark = 'E' → Text.IsDigits ds →
      Exponent (mark :: '-' :: ds) (some (-Nat.ofDigitChars 10 ds 0))

/-- The digits of an integer, with no needless zero in front. -/
structure Whole (ds : List Char) : Prop where
  digits : Text.IsDigits ds
  leading : ds.head? = some '0' → ds = ['0']

/-- A number with a fraction, an exponent or both, or minus zero, that a double can hold. -/
inductive IsDecimal : List Char → Prop where
  | intro {sign digits fraction ds exponent e} : sign = [] ∨ sign = ['-'] → Whole digits →
      Fraction fraction ds → Exponent exponent e → tooLarge digits ds (e.getD 0) = false →
      ds ≠ [] ∨ e ≠ none ∨ sign = ['-'] ∧ digits = ['0'] →
      IsDecimal (sign ++ (digits ++ (fraction ++ exponent)))

theorem readDigits_append {ds rest : List Char} (hds : Text.IsDigits ds)
    (hrest : ∀ c, rest.head? = some c → c.isDigit = false) :
    readDigits (ds ++ rest) = some (ds, rest) := by
  simp [readDigits, takeWhile_run hds.2 hrest, dropWhile_run hds.2 hrest, hds.1]

theorem readFraction_append {fraction ds rest : List Char} (h : Fraction fraction ds)
    (hrest : ∀ c, rest.head? = some c → c.isDigit = false ∧ c ≠ '.') :
    readFraction (fraction ++ rest) = some (ds, rest) := by
  cases h with
  | digits hds => exact readDigits_append hds fun c hc => (hrest c hc).1
  | absent =>
    rw [List.nil_append]
    unfold readFraction
    split
    · exact absurd rfl (hrest '.' rfl).2
    · rfl

theorem Fraction.noDigit {fraction ds rest : List Char} (h : Fraction fraction ds)
    (hrest : ∀ c, rest.head? = some c → c.isDigit = false) :
    ∀ c, (fraction ++ rest).head? = some c → c.isDigit = false := by
  cases h with
  | absent => exact hrest
  | digits =>
    rintro _ ⟨⟩
    rfl

theorem Exponent.noDigit {exponent rest : List Char} {e : Option Int} (h : Exponent exponent e)
    (hrest : EndsNumber rest) :
    ∀ c, (exponent ++ rest).head? = some c → c.isDigit = false ∧ c ≠ '.' := by
  have hmark : ∀ c : Char, c = 'e' ∨ c = 'E' → c.isDigit = false ∧ c ≠ '.' := by
    rintro c (rfl | rfl) <;> decide
  cases h with
  | absent => exact fun c hc => ⟨(hrest c hc).1, (hrest c hc).2.1⟩
  | plain hm | plus hm | minus hm =>
    rintro _ ⟨⟩
    exact hmark _ hm

theorem readExponent_append {exponent rest : List Char} {e : Option Int} (h : Exponent exponent e)
    (hrest : EndsNumber rest) : readExponent (exponent ++ rest) = some (e, rest) := by
  have hdigits : ∀ {ds}, Text.IsDigits ds → readDigits (ds ++ rest) = some (ds, rest) :=
    fun hds => readDigits_append hds fun c hc => (hrest c hc).1
  have hmark : ∀ {mark : Char}, mark = 'e' ∨ mark = 'E' → (mark == 'e' || mark == 'E') = true :=
    fun h => by simpa using h
  cases h with
  | absent =>
    cases rest with
    | nil => rfl
    | cons c rest =>
      obtain ⟨-, -, he, hE⟩ := hrest c rfl
      simp [readExponent, he, hE]
  | plus hm hds => simp [readExponent, hmark hm, hdigits hds]
  | minus hm hds => simp [readExponent, hmark hm, hdigits hds]
  | @plain _ ds hm hds =>
    obtain ⟨d, ds, rfl⟩ := List.exists_cons_of_ne_nil hds.1
    have hd : d.isDigit := hds.2 d List.mem_cons_self
    have hread := hdigits hds
    rw [List.cons_append] at hread
    simp only [List.cons_append, readExponent, hmark hm, if_true]
    split
    · next heq => exact absurd ((List.cons.inj heq).1 ▸ hd) (by decide)
    · next heq => exact absurd ((List.cons.inj heq).1 ▸ hd) (by decide)
    · simp [hread]

theorem le_ofDigitChars (ds : List Char) (n : Nat) : n ≤ Nat.ofDigitChars 10 ds n := by
  have hpow : 0 < 10 ^ ds.length := Nat.pow_pos (by decide)
  rw [Nat.ofDigitChars_eq_ofDigitChars_zero]
  exact Nat.le_add_right_of_le (Nat.le_mul_of_pos_left n hpow)

/-- The digits of a number below 64 bits all go into the mantissa. -/
theorem appendDigits_eq {ds : List Char} {n : Nat}
    (h : Nat.ofDigitChars 10 ds n < 0x10000000000000000) :
    appendDigits n ds = (Nat.ofDigitChars 10 ds n, 0) := by
  induction ds generalizing n with
  | nil => simp [appendDigits]
  | cons d ds ih =>
    rw [Nat.ofDigitChars_cons] at h ⊢
    have hnext := Nat.lt_of_le_of_lt (le_ofDigitChars ds _) h
    rw [appendDigits]
    simp only [hnext, if_true]
    exact ih h

theorem tooLarge_eq_false {ds : List Char} (h : Nat.ofDigitChars 10 ds 0 < 0x10000000000000000) :
    tooLarge ds [] 0 = false := by
  simp [tooLarge, appendDigits_eq h, appendDigits, overflows]

/-- Only zero is written with a leading zero. -/
theorem eq_zero_of_leading_zero (n : Nat) (h : (Nat.toDigits 10 n).head? = some '0') : n = 0 := by
  induction n using Nat.strongRecOn with
  | _ n ih =>
    rw [Nat.toDigits_eq_if (by decide)] at h
    split at h
    · next hn =>
      have hdigit : ∀ k < 10, Nat.digitChar k = '0' → k = 0 := by decide
      exact hdigit n hn (by simpa using h)
    · next hn =>
      obtain ⟨d, ds, hd⟩ := List.exists_cons_of_ne_nil (Nat.toDigits_ne_nil (n := n / 10) (b := 10))
      rw [hd] at h
      have := ih (n / 10) (by omega) (by rw [hd]; exact h)
      omega

theorem isDigit_toDigits {n : Nat} {d : Char} (h : d ∈ Nat.toDigits 10 n) : d.isDigit :=
  Nat.isDigit_of_mem_toDigits (by decide) (by decide) h

/-- An integer is written with a digit or a minus in front. -/
theorem exists_printInt_cons (n : Int) :
    ∃ c cs, Text.printInt n = c :: cs ∧ (c.isDigit ∨ c = '-') := by
  cases n with
  | ofNat k =>
    obtain ⟨c, cs, hc⟩ := List.exists_cons_of_ne_nil (Nat.toDigits_ne_nil (n := k) (b := 10))
    exact ⟨c, cs, hc, .inl (isDigit_toDigits (hc ▸ List.mem_cons_self))⟩
  | negSucc k => exact ⟨'-', _, rfl, .inr rfl⟩

/-- So is any other number. -/
theorem IsDecimal.exists_cons {cs : List Char} (h : IsDecimal cs) :
    ∃ c more, cs = c :: more ∧ (c.isDigit ∨ c = '-') := by
  obtain ⟨rfl | rfl, hdigits, -, -, -, -⟩ := h
  · obtain ⟨d, more, rfl⟩ := List.exists_cons_of_ne_nil hdigits.digits.1
    exact ⟨d, _, rfl, .inl (hdigits.digits.2 d List.mem_cons_self)⟩
  · exact ⟨'-', _, rfl, .inr rfl⟩

theorem whole_toDigits (n : Nat) : Whole (Nat.toDigits 10 n) := by
  refine ⟨⟨Nat.toDigits_ne_nil, fun _ => isDigit_toDigits⟩, fun h => ?_⟩
  rw [eq_zero_of_leading_zero n h]
  rfl

/-- No digit is taken for a sign. -/
theorem Whole.ne_minus {ds : List Char} (h : Whole ds) (rest body : List Char) :
    ds ++ rest ≠ '-' :: body := by
  obtain ⟨d, more, rfl⟩ := List.exists_cons_of_ne_nil h.digits.1
  intro heq
  have hd := h.digits.2 d List.mem_cons_self
  rw [(List.cons.inj heq).1] at hd
  exact absurd hd (by decide)

theorem textBefore_append (cs rest : List Char) : textBefore (cs ++ rest) rest = .ofList cs := by
  rw [textBefore, List.length_append, Nat.add_sub_cancel_right, List.take_left]

/-- The parts of a number are read one behind the other. An integer has its value, unless it is
minus zero; any other number is kept as it is written. -/
theorem readNumber_append {sign digits fraction ds exponent rest : List Char} {e : Option Int}
    (hsign : sign = [] ∨ sign = ['-']) (hdigits : Whole digits) (hfraction : Fraction fraction ds)
    (hexponent : Exponent exponent e) (hlarge : tooLarge digits ds (e.getD 0) = false)
    (hrest : EndsNumber rest) :
    let n := Nat.ofDigitChars 10 digits 0
    readNumber (sign ++ (digits ++ (fraction ++ (exponent ++ rest)))) = some
      (if ds.isEmpty && e.isNone && !(sign == ['-'] && n == 0) then
        .number (if sign == ['-'] then -n else n)
      else .decimal (.ofList (sign ++ (digits ++ (fraction ++ exponent)))), rest) := by
  intro n
  have hbehind := hexponent.noDigit hrest
  have hread := readDigits_append hdigits.digits (hfraction.noDigit fun c hc => (hbehind c hc).1)
  have hfractionRead := readFraction_append hfraction hbehind
  have hexponentRead := readExponent_append hexponent hrest
  have hleading : (digits.head? == some '0' && digits.length != 1) = false := by
    by_cases hzero : digits.head? = some '0'
    · simp [hdigits.leading hzero]
    · simp [hzero]
  have htext : ∀ cs, textBefore (cs ++ (digits ++ (fraction ++ (exponent ++ rest)))) rest =
      .ofList (cs ++ (digits ++ (fraction ++ exponent))) := by
    intro cs
    rw [← textBefore_append _ rest]
    simp only [List.append_assoc]
  rcases hsign with rfl | rfl
  · have hpositive : (([] : List Char) == ['-']) = false := rfl
    have hwritten := htext []
    simp only [List.nil_append] at hwritten ⊢
    rw [readNumber]
    · simp only [hread, hleading, hfractionRead, hexponentRead, hlarge, hwritten, hpositive,
        Option.bind_eq_bind, Option.bind_some, Bool.false_eq_true, if_false, Bool.false_and]
      split <;> rfl
    · exact hdigits.ne_minus _
  · have hwritten := htext ['-']
    simp only [List.cons_append, List.nil_append] at hwritten ⊢
    simp only [readNumber, hread, hleading, hfractionRead, hexponentRead, hlarge, hwritten,
      Option.bind_eq_bind, Option.bind_some, Bool.false_eq_true, if_false, if_true,
      beq_self_eq_true, Bool.true_and]
    split <;> rfl

theorem readNumber_printInt {n : Int} (h : tooLarge (Nat.toDigits 10 n.natAbs) [] 0 = false)
    {rest : List Char} (hrest : EndsNumber rest) :
    readNumber (Text.printInt n ++ rest) = some (.number n, rest) := by
  have hvalue : ∀ k, Nat.ofDigitChars 10 (Nat.toDigits 10 k) 0 = k :=
    fun _ => Nat.ofDigitChars_ten_toDigits
  cases n with
  | ofNat k =>
    have hread := readNumber_append (.inl rfl) (whole_toDigits k) .absent .absent h hrest
    simpa [hvalue, Text.printInt] using hread
  | negSucc k =>
    have hread := readNumber_append (.inr rfl) (whole_toDigits (k + 1)) .absent .absent h hrest
    have hnumber : -((k : Int) + 1) = Int.negSucc k := rfl
    simpa [hvalue, hnumber, Text.printInt] using hread

theorem readNumber_isDecimal {cs rest : List Char} (h : IsDecimal cs) (hrest : EndsNumber rest) :
    readNumber (cs ++ rest) = some (.decimal (.ofList cs), rest) := by
  obtain ⟨hsign, hdigits, hfraction, hexponent, hlarge, hother⟩ := h
  have hread := readNumber_append hsign hdigits hfraction hexponent hlarge hrest
  simp only [List.append_assoc] at hread ⊢
  rw [hread, if_neg]
  rcases hother with h | h | ⟨rfl, rfl⟩
  · simp [h]
  · simp [h]
  · have hzero : Nat.ofDigitChars 10 ['0'] 0 = 0 := rfl
    simp [hzero]

/-! ## Values -/

/-- A value that its text stands for, at a depth: a double can hold each of its numbers, a
number that is no integer is written as one, and its lists are not too many levels deep. -/
inductive Writable : Nat → Json → Prop where
  | null {depth} : Writable depth .null
  | bool {depth} (b) : Writable depth (.bool b)
  | number {depth} {n : Int} : tooLarge (Nat.toDigits 10 n.natAbs) [] 0 = false →
      Writable depth (.number n)
  | decimal {depth} {literal : String} : IsDecimal literal.toList →
      Writable depth (.decimal literal)
  | string {depth} (s) : Writable depth (.string s)
  | array {depth items} : depth < maxDepth → (∀ item ∈ items, Writable (depth + 1) item) →
      Writable depth (.array items)
  | object {depth members} : depth < maxDepth →
      (∀ member ∈ members, Writable (depth + 1) member.2) → Writable depth (.object members)

/-- A double can hold every integer of at most 64 bits. -/
theorem Writable.number_of_natAbs_lt {depth : Nat} {n : Int} (h : n.natAbs < 0x10000000000000000) :
    Writable depth (.number n) :=
  .number (tooLarge_eq_false (by rwa [Nat.ofDigitChars_ten_toDigits]))

/-- Whatever stands behind the text of a value, the value is read from the text. -/
def ReadsBack (l : Layout) (depth : Nat) (v : Json) : Prop :=
  ∀ (bound : Nat) (rest : List Char), 2 * (write l depth v).length ≤ bound → EndsNumber rest →
    readValue bound depth (write l depth v ++ rest) = some (v, rest)

theorem readValue_append {blanks : List Char} (h : ∀ c ∈ blanks, isSpace c) (bound depth : Nat)
    (cs : List Char) : readValue bound depth (blanks ++ cs) = readValue bound depth cs := by
  cases bound with
  | zero => rw [readValue, readValue]
  | succ bound => rw [readValue, readValue, skipSpace_append h]

theorem readMember_append {blanks : List Char} (h : ∀ c ∈ blanks, isSpace c) (bound depth : Nat)
    (cs : List Char) : readMember bound depth (blanks ++ cs) = readMember bound depth cs := by
  cases bound with
  | zero => rw [readMember, readMember]
  | succ bound => rw [readMember, readMember, skipSpace_append h]

theorem ne_of_number {c d : Char} (h : c.isDigit ∨ c = '-') (hd : d.isDigit = false ∧ d ≠ '-') :
    c ≠ d := by
  rintro rfl
  rcases h with h | h
  · rw [hd.1] at h
    cases h
  · exact hd.2 h

theorem isSpace_number {c : Char} (h : c.isDigit ∨ c = '-') : isSpace c = false := by
  have hspaces : c ≠ ' ' ∧ c ≠ '\n' ∧ c ≠ '\t' ∧ c ≠ '\r' :=
    ⟨ne_of_number h (by decide), ne_of_number h (by decide), ne_of_number h (by decide),
      ne_of_number h (by decide)⟩
  simp [isSpace, hspaces]

/-- The text of a value starts with a character that no array ends with. -/
theorem exists_write_cons (l : Layout) {depth : Nat} {v : Json} (h : Writable depth v) :
    ∃ c cs, write l depth v = c :: cs ∧ isSpace c = false ∧ c ≠ ']' := by
  cases h with
  | null => exact ⟨'n', _, by rw [write], rfl, by decide⟩
  | bool b =>
    cases b with
    | false => exact ⟨'f', _, by rw [write], rfl, by decide⟩
    | true => exact ⟨'t', _, by rw [write], rfl, by decide⟩
  | @number _ n _ =>
    obtain ⟨c, cs, hn, hc⟩ := exists_printInt_cons n
    exact ⟨c, cs, by rw [write, hn], isSpace_number hc, ne_of_number hc (by decide)⟩
  | decimal h =>
    obtain ⟨c, cs, hliteral, hc⟩ := h.exists_cons
    exact ⟨c, cs, by rw [write, hliteral], isSpace_number hc, ne_of_number hc (by decide)⟩
  | string s => exact ⟨'"', _, by rw [write, writeString]; rfl, rfl, by decide⟩
  | @array _ items _ _ =>
    cases items with
    | nil => exact ⟨'[', _, by rw [write], rfl, by decide⟩
    | cons item items => exact ⟨'[', _, by rw [write]; rfl, rfl, by decide⟩
  | @object _ members _ _ =>
    cases members with
    | nil => exact ⟨'\x7b', _, by rw [write], rfl, by decide⟩
    | cons member members => exact ⟨'\x7b', _, by rw [write]; rfl, rfl, by decide⟩

/-- A text that is not empty leaves the reader at least one call. -/
theorem ReadsBack.of_succ {l : Layout} {depth : Nat} {v : Json} (hv : Writable depth v)
    (h : ∀ (bound : Nat) (rest : List Char), 2 * (write l depth v).length ≤ bound + 1 →
      EndsNumber rest → readValue (bound + 1) depth (write l depth v ++ rest) = some (v, rest)) :
    ReadsBack l depth v := by
  obtain ⟨c, cs, hc, -⟩ := exists_write_cons l hv
  intro bound rest hbound hrest
  rw [hc, List.length_cons] at hbound
  obtain ⟨bound, rfl⟩ : ∃ b, bound = b + 1 := ⟨bound - 1, by omega⟩
  exact h bound rest (by rwa [hc, List.length_cons]) hrest

/-! ## Lists -/

section Lists

variable {l : Layout} {depth : Nat}

theorem endsNumber_cons {c : Char} (h : c = ',' ∨ c = ']' ∨ c = '\x7d' ∨ isSpace c)
    (rest : List Char) : EndsNumber (c :: rest) := by
  intro d hd
  obtain rfl : c = d := Option.some.inj hd
  simp only [isSpace, Bool.or_eq_true, beq_iff_eq] at h
  rcases h with rfl | rfl | rfl | ((rfl | rfl) | rfl) | rfl <;> decide

theorem endsNumber_append {blanks : List Char} (h : ∀ c ∈ blanks, isSpace c) {rest : List Char}
    (hrest : EndsNumber rest) : EndsNumber (blanks ++ rest) := by
  cases blanks with
  | nil => exact hrest
  | cons c blanks => exact endsNumber_cons (.inr (.inr (.inr (h c List.mem_cons_self)))) _

theorem endsNumber_writeItems (hl : l.Blank) (depth : Nat) (items : List Json)
    (rest : List Char) : EndsNumber (writeItems l depth items ++ rest) := by
  cases items with
  | nil =>
    rw [writeItems, List.append_assoc]
    exact endsNumber_append (hl.newline depth) (endsNumber_cons (.inr (.inl rfl)) _)
  | cons item items =>
    rw [writeItems]
    exact endsNumber_cons (.inl rfl) _

theorem endsNumber_writeMembers (hl : l.Blank) (depth : Nat) (members : List (String × Json))
    (rest : List Char) : EndsNumber (writeMembers l depth members ++ rest) := by
  cases members with
  | nil =>
    rw [writeMembers, List.append_assoc]
    exact endsNumber_append (hl.newline depth) (endsNumber_cons (.inr (.inr (.inl rfl))) _)
  | cons member members =>
    rw [writeMembers]
    exact endsNumber_cons (.inl rfl) _

theorem readItems_write (hl : l.Blank) {items : List Json}
    (hitems : ∀ item ∈ items, ReadsBack l (depth + 1) item) (bound : Nat)
    (hbound : 2 * (writeItems l depth items).length ≤ bound) (rest : List Char) :
    readItems bound depth (writeItems l depth items ++ rest) = some (items, rest) := by
  induction items generalizing bound with
  | nil =>
    rw [writeItems, List.length_append, List.length_singleton] at hbound
    obtain ⟨bound, rfl⟩ : ∃ b, bound = b + 1 := ⟨bound - 1, by omega⟩
    rw [writeItems, List.append_assoc, readItems, skipSpace_append (hl.newline depth)]
    rfl
  | cons item items ih =>
    obtain ⟨hitem, hitems⟩ := List.forall_mem_cons.mp hitems
    rw [writeItems] at hbound ⊢
    simp only [List.cons_append, List.append_assoc, List.length_cons,
      List.length_append] at hbound ⊢
    obtain ⟨bound, rfl⟩ : ∃ b, bound = b + 1 := ⟨bound - 1, by omega⟩
    have hread := hitem bound _ (by omega) (endsNumber_writeItems hl depth items rest)
    have hrest := ih hitems bound (by omega)
    simp only [readItems, skipSpace_cons (rfl : isSpace ',' = false),
      readValue_append (hl.newline (depth + 1)), hread, hrest, Option.bind_eq_bind,
      Option.bind_some]
    rfl

theorem readArray_write (hl : l.Blank) {item : Json} {items : List Json}
    (hfirst : Writable (depth + 1) item)
    (hitems : ∀ x ∈ item :: items, ReadsBack l (depth + 1) x) (bound : Nat)
    (hbound : 2 * ((write l (depth + 1) item).length + (writeItems l depth items).length) < bound)
    (rest : List Char) :
    readArray bound depth (l.newline (depth + 1) ++
      (write l (depth + 1) item ++ (writeItems l depth items ++ rest))) =
        some (item :: items, rest) := by
  obtain ⟨hitem, hitems⟩ := List.forall_mem_cons.mp hitems
  obtain ⟨bound, rfl⟩ : ∃ b, bound = b + 1 := ⟨bound - 1, by omega⟩
  obtain ⟨c, cs, hc, hspace, hbracket⟩ := exists_write_cons l hfirst
  have hread := hitem bound _ (by omega) (endsNumber_writeItems hl depth items rest)
  have hrest := readItems_write hl hitems bound (by omega) rest
  rw [hc, List.cons_append] at hread
  rw [hc, List.cons_append]
  simp only [readArray, skipSpace_append (hl.newline (depth + 1)), skipSpace_cons hspace]
  split
  · next heq => exact absurd (List.cons.inj heq).1 hbracket
  · simp only [hread, hrest, Option.bind_eq_bind, Option.bind_some]
    rfl

theorem readMember_write (hl : l.Blank) (key : String) (value : Json)
    (hvalue : ReadsBack l (depth + 1) value) (bound : Nat)
    (hbound : 2 * (write l (depth + 1) value).length < bound) {rest : List Char}
    (hrest : EndsNumber rest) :
    readMember bound depth (writeString key ++ (l.colon ++ (write l (depth + 1) value ++ rest))) =
      some ((some key, value), rest) := by
  obtain ⟨bound, rfl⟩ : ∃ b, bound = b + 1 := ⟨bound - 1, by omega⟩
  obtain ⟨blanks, hcolon, hblanks⟩ := hl.colon
  have hread := hvalue bound rest (by omega) hrest
  rw [writeString, hcolon]
  simp only [List.cons_append, List.append_assoc, List.nil_append, readMember,
    skipSpace_cons (rfl : isSpace '"' = false), skipSpace_cons (rfl : isSpace ':' = false),
    readString_write, readValue_append hblanks, hread, Option.bind_eq_bind, Option.bind_some]
  rfl

/-- Members as they are read, with keys that could have been unreadable. -/
def readMembersAs (members : List (String × Json)) : List (Option String × Json) :=
  members.map fun (key, value) => (some key, value)

theorem readMembers_write (hl : l.Blank) {members : List (String × Json)}
    (hmembers : ∀ member ∈ members, ReadsBack l (depth + 1) member.2) (bound : Nat)
    (hbound : 2 * (writeMembers l depth members).length ≤ bound) (rest : List Char) :
    readMembers bound depth (writeMembers l depth members ++ rest) =
      some (readMembersAs members, rest) := by
  induction members generalizing bound with
  | nil =>
    rw [writeMembers, List.length_append, List.length_singleton] at hbound
    obtain ⟨bound, rfl⟩ : ∃ b, bound = b + 1 := ⟨bound - 1, by omega⟩
    rw [writeMembers, List.append_assoc, readMembers, skipSpace_append (hl.newline depth)]
    rfl
  | cons member members ih =>
    obtain ⟨key, value⟩ := member
    obtain ⟨hvalue, hmembers⟩ := List.forall_mem_cons.mp hmembers
    rw [writeMembers] at hbound ⊢
    simp only [List.cons_append, List.append_assoc, List.length_cons,
      List.length_append] at hbound ⊢
    obtain ⟨bound, rfl⟩ : ∃ b, bound = b + 1 := ⟨bound - 1, by omega⟩
    have hread := readMember_write hl key value hvalue bound (by omega)
      (endsNumber_writeMembers hl depth members rest)
    have hrest := ih hmembers bound (by omega)
    simp only [readMembers, skipSpace_cons (rfl : isSpace ',' = false),
      readMember_append (hl.newline (depth + 1)), hread, hrest, Option.bind_eq_bind,
      Option.bind_some]
    rfl

theorem readObject_write (hl : l.Blank) (key : String) (value : Json)
    {members : List (String × Json)}
    (hmembers : ∀ member ∈ (key, value) :: members, ReadsBack l (depth + 1) member.2)
    (bound : Nat) (hbound : 2 * ((write l (depth + 1) value).length +
      (writeMembers l depth members).length) + 1 < bound) (rest : List Char) :
    readObject bound depth (l.newline (depth + 1) ++ (writeString key ++ (l.colon ++
      (write l (depth + 1) value ++ (writeMembers l depth members ++ rest))))) =
        some (readMembersAs ((key, value) :: members), rest) := by
  obtain ⟨hvalue, hmembers⟩ := List.forall_mem_cons.mp hmembers
  obtain ⟨bound, rfl⟩ : ∃ b, bound = b + 1 := ⟨bound - 1, by omega⟩
  have hread := readMember_write hl key value hvalue bound (by omega)
    (endsNumber_writeMembers hl depth members rest)
  have hrest := readMembers_write hl hmembers bound (by omega) rest
  have hquote : ∀ more, skipSpace (writeString key ++ more) = writeString key ++ more :=
    fun _ => skipSpace_cons rfl _
  simp only [readObject, skipSpace_append (hl.newline (depth + 1)), hquote]
  split
  · next heq => exact absurd (List.cons.inj heq).1 (by decide)
  · simp only [hread, hrest, Option.bind_eq_bind, Option.bind_some]
    rfl

/-- Items that all come back from what they were turned into come back as a list. -/
theorem mapM_map_eq_some {α β : Type} {encode : α → β} {decode : β → Option α} {items : List α}
    (h : ∀ a ∈ items, decode (encode a) = some a) :
    (items.map encode).mapM decode = some items := by
  induction items with
  | nil => rfl
  | cons a items ih =>
    obtain ⟨hhead, htail⟩ := List.forall_mem_cons.mp h
    rw [List.map_cons, List.mapM_cons, hhead, ih htail]
    rfl

theorem objectOf_readMembersAs (members : List (String × Json)) (literal : String) :
    objectOf (readMembersAs members) literal = .object members := by
  rw [objectOf, readMembersAs, mapM_map_eq_some]
  exact fun _ _ => rfl

/-! ## One case for each form of value -/

/-- A text that starts like a number is read as one. -/
theorem readValue_number {c : Char} {cs : List Char} (hc : c.isDigit ∨ c = '-')
    (bound depth : Nat) : readValue (bound + 1) depth (c :: cs) = readNumber (c :: cs) := by
  rw [readValue, skipSpace_cons (isSpace_number hc)]
  -- no other form of value starts with this character
  split
  · next heq => exact absurd (List.cons.inj heq).1 (ne_of_number hc (by decide))
  · next heq => exact absurd (List.cons.inj heq).1 (ne_of_number hc (by decide))
  · next heq => exact absurd (List.cons.inj heq).1 (ne_of_number hc (by decide))
  · next heq => exact absurd (List.cons.inj heq).1 (ne_of_number hc (by decide))
  · next heq => exact absurd (List.cons.inj heq).1 (ne_of_number hc (by decide))
  · next heq => exact absurd (List.cons.inj heq).1 (ne_of_number hc (by decide))
  · rfl

theorem readsBack_number {n : Int} (h : tooLarge (Nat.toDigits 10 n.natAbs) [] 0 = false) :
    ReadsBack l depth (.number n) := by
  obtain ⟨c, cs, hn, hc⟩ := exists_printInt_cons n
  refine .of_succ (.number h) ?_
  intro bound rest _ hrest
  have hread := readNumber_printInt h hrest
  rw [hn, List.cons_append] at hread
  rw [write, hn, List.cons_append, readValue_number hc, hread]

theorem readsBack_decimal {literal : String} (h : IsDecimal literal.toList) :
    ReadsBack l depth (.decimal literal) := by
  obtain ⟨c, cs, hliteral, hc⟩ := h.exists_cons
  refine .of_succ (.decimal h) ?_
  intro bound rest _ hrest
  have hread := readNumber_isDecimal h hrest
  rw [String.ofList_toList, hliteral, List.cons_append] at hread
  rw [write, hliteral, List.cons_append, readValue_number hc, hread]

theorem readsBack_string (s : String) : ReadsBack l depth (.string s) := by
  refine .of_succ (.string s) ?_
  intro bound rest _ _
  simp only [write, writeString, List.cons_append, List.append_assoc, List.nil_append, readValue,
    skipSpace_cons (rfl : isSpace '"' = false), readString_write]
  rfl

theorem readsBack_array (hl : l.Blank) {items : List Json} (hdepth : depth < maxDepth)
    (hwritable : ∀ item ∈ items, Writable (depth + 1) item)
    (hitems : ∀ item ∈ items, ReadsBack l (depth + 1) item) : ReadsBack l depth (.array items) := by
  refine .of_succ (.array hdepth hwritable) ?_
  intro bound rest hbound _
  cases items with
  | nil =>
    rw [write, List.length_cons] at hbound
    obtain ⟨bound, rfl⟩ : ∃ b, bound = b + 1 := ⟨bound - 1, by omega⟩
    simp [write, readValue, readArray, skipSpace_cons (rfl : isSpace '[' = false),
      skipSpace_cons (rfl : isSpace ']' = false), hdepth]
  | cons item items =>
    rw [write] at hbound ⊢
    simp only [List.cons_append, List.append_assoc, List.length_cons,
      List.length_append] at hbound ⊢
    have hread := readArray_write hl (hwritable item List.mem_cons_self) hitems bound
      (by omega) rest
    simp [readValue, skipSpace_cons (rfl : isSpace '[' = false), hread, hdepth]

theorem readsBack_object (hl : l.Blank) {members : List (String × Json)} (hdepth : depth < maxDepth)
    (hwritable : ∀ member ∈ members, Writable (depth + 1) member.2)
    (hmembers : ∀ member ∈ members, ReadsBack l (depth + 1) member.2) :
    ReadsBack l depth (.object members) := by
  refine .of_succ (.object hdepth hwritable) ?_
  intro bound rest hbound _
  cases members with
  | nil =>
    rw [write, List.length_cons] at hbound
    obtain ⟨bound, rfl⟩ : ∃ b, bound = b + 1 := ⟨bound - 1, by omega⟩
    simp [write, readValue, readObject, skipSpace_cons (rfl : isSpace '\x7b' = false),
      skipSpace_cons (rfl : isSpace '\x7d' = false), hdepth, objectOf]
  | cons member members =>
    obtain ⟨key, value⟩ := member
    have hkey : (writeString key).length ≠ 0 := by simp [writeString]
    rw [write] at hbound ⊢
    simp only [List.cons_append, List.append_assoc, List.length_cons,
      List.length_append] at hbound ⊢
    have hread := readObject_write hl key value hmembers bound (by omega) rest
    simp [readValue, skipSpace_cons (rfl : isSpace '\x7b' = false), hread, hdepth,
      objectOf_readMembersAs]

end Lists

theorem Writable.readsBack {l : Layout} (hl : l.Blank) {depth : Nat} {v : Json}
    (h : Writable depth v) : ReadsBack l depth v := by
  induction h with
  | null =>
    refine .of_succ .null fun bound rest _ _ => ?_
    rw [write, readValue, List.cons_append, skipSpace_cons rfl]
    rfl
  | bool b =>
    refine .of_succ (.bool b) fun bound rest _ _ => ?_
    cases b with
    | false =>
      rw [write, readValue, List.cons_append, skipSpace_cons rfl]
      rfl
    | true =>
      rw [write, readValue, List.cons_append, skipSpace_cons rfl]
      rfl
  | number hn => exact readsBack_number hn
  | decimal hliteral => exact readsBack_decimal hliteral
  | string s => exact readsBack_string s
  | array hdepth hwritable hitems => exact readsBack_array hl hdepth hwritable hitems
  | object hdepth hwritable hmembers => exact readsBack_object hl hdepth hwritable hmembers

/-- The text of a value, in whatever layout, is read as the value. -/
theorem read?_write {l : Layout} (hl : l.Blank) {v : Json} (h : Writable 0 v) :
    read? (.ofList (write l 0 v)) = some v := by
  have hend : EndsNumber [] := by simp [EndsNumber]
  have hread := h.readsBack hl (2 * (write l 0 v).length + 1) [] (Nat.le_succ _) hend
  rw [List.append_nil] at hread
  rw [read?]
  simp only [String.toList_ofList, hread]
  rfl

end Zpl.Json
