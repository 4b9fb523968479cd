import Zpl.Proofs.Placement

/-! Every character of a source is accounted for. Tokens are exact, ordered slices
of the source; a character between them is white space, a delimiter of a parameter
list, or reported as stray, and it is only one of these (`ofText_covers`). The
settings are arbitrary: marker and delimiter may be any characters. -/

namespace Zpl

namespace TokenStream

/-- No token covers the byte at an offset. -/
def Uncovered (s : TokenStream) (offset : Nat) : Prop :=
  ∀ t ∈ s.tokens, ¬(t.position.offset ≤ offset ∧ offset < t.stop)

/-- The text `before` ends in a parameter list: a code that takes no content stands
in it, with no marker and no line break behind the code. -/
def InParameters (m : Marks) (s : TokenStream) (before : List Char) : Prop :=
  ∃ t ∈ s.tokens, t.kind = .code ∧ t.value ≠ "FD" ∧ t.value ≠ "FV" ∧
    ∃ front between, before = front ++ between ∧ t.stop = Text.byteLength front ∧
      ∀ d ∈ between, d ≠ m.marker ∧ Text.isLineBreak d = false

/-- A delimiter that is no white space, behind the text `before`, in a parameter list. -/
structure IsDelimiter (m : Marks) (s : TokenStream) (before : List Char) (c : Char) : Prop where
  delimiter : c = m.delimiter
  not_blank : Text.isBlank c = false
  place : s.InParameters m before

/-- The reports of stray characters at an offset. -/
def strayReports (s : TokenStream) (offset : Nat) : List Diagnostic :=
  s.errors.filter fun d => d.code == "ZPL0001" && d.position.offset == offset

/-- What a character outside of all tokens is: exactly one of white space, a
delimiter, and a stray character that is reported once, at its position. -/
inductive Skipped (m : Marks) (s : TokenStream) (before : List Char) (c : Char) : Prop where
  | blank : Text.isBlank c → ¬s.IsDelimiter m before c →
      s.strayReports (Text.byteLength before) = [] → Skipped m s before c
  | delimiter : Text.isBlank c = false → s.IsDelimiter m before c →
      s.strayReports (Text.byteLength before) = [] → Skipped m s before c
  | stray : Text.isBlank c = false → ¬s.IsDelimiter m before c →
      s.strayReports (Text.byteLength before) =
        [(Problem.strayCharacter c).diagnose (Position.start.after before (some c))] →
      Skipped m s before c

/-- A stream accounts for every character of a source exactly once. -/
structure Covers (m : Marks) (source : List Char) (s : TokenStream) : Prop where
  /-- Tokens stand in order and do not overlap. -/
  ordered : s.tokens.Pairwise fun a b => a.stop ≤ b.position.offset
  /-- The text of a token is the source between its two offsets, which stand
  between characters. -/
  exact : ∀ t ∈ s.tokens, ∃ before behind, source = before ++ (t.raw.toList ++ behind) ∧
    t.position.offset = Text.byteLength before
  /-- The last token stands for the end; all others cover some text. -/
  ending : ∃ front p, s.tokens = front ++ [.finishAt p] ∧ p.offset = Text.byteLength source ∧
    ∀ t ∈ front, t.kind ≠ .finish ∧ t.position.offset < t.stop
  skipped : ∀ before c behind, source = before ++ c :: behind →
    s.Uncovered (Text.byteLength before) → s.Skipped m before c
  /-- Stray characters are reported nowhere else. -/
  reported : ∀ d ∈ s.errors, d.code = "ZPL0001" → ∃ before c behind,
    source = before ++ c :: behind ∧ d.position = Position.start.after before (some c) ∧
      s.Uncovered (Text.byteLength before)

end TokenStream

namespace Lexeme

variable {m : Marks}

theorem byteLength_pos {cs : List Char} (h : cs ≠ []) : 0 < Text.byteLength cs := by
  obtain ⟨c, cs, rfl⟩ := List.exists_cons_of_ne_nil h
  have := c.utf8Size_pos
  simp only [Text.byteLength]
  omega

/-- Of two beginnings of a text, the one with more bytes goes on. -/
theorem prefix_of_byteLength {a b a' b' : List Char} (h : a ++ b = a' ++ b')
    (hle : Text.byteLength a ≤ Text.byteLength a') : ∃ more, a' = a ++ more := by
  rcases List.append_eq_append_iff.mp h with ⟨more, ha, -⟩ | ⟨more, ha, -⟩
  · exact ⟨more, ha⟩
  · cases more with
    | nil => exact ⟨[], by rw [ha, List.append_nil, List.append_nil]⟩
    | cons c more =>
      have := @byteLength_pos (c :: more) (by simp)
      rw [ha, Text.byteLength_append] at hle
      omega

theorem eq_of_byteLength {a b a' b' : List Char} (h : a ++ b = a' ++ b')
    (hlen : Text.byteLength a = Text.byteLength a') : a = a' := by
  obtain ⟨more, rfl⟩ := prefix_of_byteLength h (Nat.le_of_eq hlen)
  cases more with
  | nil => rw [List.append_nil]
  | cons c more =>
    have := @byteLength_pos (c :: more) (by simp)
    rw [Text.byteLength_append] at hlen
    omega

/-- Of two beginnings of a list of lexemes, the one with the longer text goes on. -/
theorem prefix_of_flatten {xs ys xs' ys' : List Lexeme} {w : List Char}
    (hne : ∀ z ∈ xs, z.text ≠ []) (h : xs ++ ys = xs' ++ ys')
    (hw : flatten xs' = flatten xs ++ w) : ∃ between, xs' = xs ++ between := by
  rcases List.append_eq_append_iff.mp h with ⟨more, hx, -⟩ | ⟨more, hx, -⟩
  · exact ⟨more, hx⟩
  · cases more with
    | nil => exact ⟨[], by simp [hx]⟩
    | cons z more =>
      have hz := byteLength_pos (hne z (by simp [hx]))
      have := congrArg Text.byteLength hw
      rw [hx, flatten_append, flatten_cons] at this
      simp only [Text.byteLength_append] at this
      omega

/-- The lexeme that holds a character of a text. -/
theorem exists_holder {xs : List Lexeme} {before behind : List Char} {c : Char}
    (h : flatten xs = before ++ c :: behind) :
    ∃ front x back u v, xs = front ++ x :: back ∧ x.text = u ++ c :: v ∧
      before = flatten front ++ u := by
  induction xs generalizing before with
  | nil => simp at h
  | cons y xs ih =>
    rw [flatten_cons] at h
    have later : ∀ {rest}, before = y.text ++ rest → flatten xs = rest ++ c :: behind →
        ∃ front x back u v, y :: xs = front ++ x :: back ∧ x.text = u ++ c :: v ∧
          before = flatten front ++ u := by
      intro rest hbefore hrest
      obtain ⟨front, x, back, u, v, hxs, hx, hu⟩ := ih hrest
      exact ⟨y :: front, x, back, u, v, by rw [hxs]; rfl, hx, by rw [hbefore, hu]; simp⟩
    rcases List.append_eq_append_iff.mp h with ⟨rest, hbefore, hrest⟩ | ⟨rest, htext, hrest⟩
    · exact later hbefore hrest
    · cases rest with
      | nil =>
        rw [List.append_nil] at htext
        exact @later [] (by simp [htext]) hrest.symm
      | cons d rest =>
        obtain ⟨rfl, -⟩ := List.cons.inj hrest
        exact ⟨[], y, xs, before, rest, rfl, htext, rfl⟩

/-- A lexeme that becomes no token is one character. -/
theorem Fits.gap {x : Lexeme} (h : x.Fits m) (hx : tokenKind? x.kind = none) :
    ∃ c, x.text = [c] ∧ (x.kind = .blank ∧ Text.isBlank c ∨
      x.kind = .separator ∧ separates m c ∨ x.kind = .stray ∧ Text.isBlank c = false) := by
  unfold Fits at h
  split at h
  · next hk => obtain ⟨c, ht, hc⟩ := h; exact ⟨c, ht, .inl ⟨hk, hc⟩⟩
  · next hk => obtain ⟨c, ht, hc⟩ := h; exact ⟨c, ht, .inr (.inl ⟨hk, hc⟩)⟩
  · next hk => obtain ⟨c, ht, hc⟩ := h; exact ⟨c, ht, .inr (.inr ⟨hk, hc⟩)⟩
  · next hk => simp [hk, tokenKind?] at hx
  · next hk => simp [hk, tokenKind?] at hx
  · next hb hs hr _ _ => cases hk : x.kind <;> simp_all [tokenKind?]

/-- A character outside of all tokens could be an operand. -/
theorem Scan.isOperandChar_of_gap {cs : List Char} {xs front back : List Lexeme} {x : Lexeme}
    {c : Char} (h : Scan m cs xs) (hxs : xs = front ++ x :: back)
    (hx : tokenKind? x.kind = none) (ht : x.text = [c]) : isOperandChar m c := by
  cases h.around hxs with
  | code hk _ _ _ _ => simp [hk, tokenKind?] at hx
  | head hlead hs =>
    have hkind : x.kind = .blank ∨ x.kind = .stray := by
      cases hk : x.kind <;> simp_all [leads, tokenKind?]
    obtain ⟨d, hd, hp⟩ := hs.plain_head hkind
    obtain rfl : c = d := by simpa [ht] using hd
    exact hp.isOperandChar
  | @operand _ code line _ _ before after hcommand _ _ ho _ =>
    refine hcommand.line c ?_
    rw [← flatten_operands m code line, ho, flatten_append, flatten_cons, ht]
    simp

/-- A code takes all that could be an operand: what stands behind it, over operand
characters only, is part of its parameter list. -/
theorem Scan.operand_behind {cs : List Char} {front mid back : List Lexeme} {y x : Lexeme} {c : Char}
    (h : Scan m cs (front ++ y :: (mid ++ x :: back))) (hy : y.kind = .code)
    (hcode : takesContent y.text = false) (hmid : ∀ d ∈ flatten mid, isOperandChar m d)
    (hx : x.text = [c]) (hc : isOperandChar m c) : x.kind = .separator ∨ x.kind = .parameter := by
  cases h.around rfl with
  | head hk _ => simp [hy, leads] at hk
  | @operand _ code line _ _ before after _ _ _ ho _ =>
    have hkind := operands_kind (ho ▸ by simp : y ∈ operands m code line)
    split at hkind <;> simp [hy] at hkind
  | @code _ line rest more _ hcommand hs _ hback =>
    have inside : x ∈ operands m y.text line → x.kind = .separator ∨ x.kind = .parameter := by
      intro hmem
      simpa [hcode] using operands_kind hmem
    have outside : ∀ w, (∀ d ∈ flatten w, isOperandChar m d) → more = w ++ x :: back → False := by
      intro w hw hmore
      have hrest : rest = flatten w ++ c :: flatten back := by
        rw [← hs.flatten_eq, hmore]
        simp [hx]
      exact (hrest ▸ hcommand.ends).absurd hw hc
    rcases List.append_eq_append_iff.mp hback with ⟨w, ho, hw⟩ | ⟨w, hm, hw⟩
    · cases w with
      | nil => exact (outside [] (by simp) hw.symm).elim
      | cons z w =>
        obtain ⟨rfl, -⟩ := List.cons.inj hw
        exact inside (by simp [ho])
    · refine (outside w (fun d hd => hmid d ?_) hw).elim
      rw [hm, flatten_append]
      exact List.mem_append_right _ hd

end Lexeme

namespace Placed

theorem stray_of_report {x : Placed} {d : Diagnostic} (h : x.report? = some d)
    (hc : d.code = "ZPL0001") : x.lexeme.kind = .stray := by
  obtain ⟨problem, hp, rfl⟩ := Option.map_eq_some_iff.mp h
  rw [Problem.diagnose_code] at hc
  unfold Lexeme.problem? at hp
  split at hp
  · next hk _ => exact hk
  · obtain rfl := Option.some.inj hp
    exact absurd hc (by simp [Problem.code])
  · obtain rfl := Option.some.inj hp
    exact absurd hc (by simp [Problem.code])
  · simp at hp

theorem report_of_stray {x : Placed} {c : Char} (hk : x.lexeme.kind = .stray)
    (ht : x.lexeme.text = [c]) :
    x.report? = some ((Problem.strayCharacter c).diagnose x.position) := by
  simp [report?, Lexeme.problem?, hk, ht]

end Placed

namespace TokenStream

open Lexeme

variable {m : Marks} {source : String}

theorem mem_tokens {t : Token} :
    t ∈ (ofText m source).tokens ↔
      (∃ x ∈ place .start none (lexemes m source.toList), x.token? = some t) ∨
        t = .finishAt (Position.start.after source.toList none) := by
  rw [ofText_tokens]
  simp [List.mem_filterMap]

/-- The placed lexemes of a source, around one of them. -/
theorem place_around {front back : List Lexeme} {x : Lexeme}
    (h : lexemes m source.toList = front ++ x :: back) :
    ∃ before behind p,
      place .start none (lexemes m source.toList) =
          before ++ ⟨x, p, (flatten back).head?⟩ :: behind ∧
        p = Position.start.after (flatten front) (flatten (x :: back)).head? ∧
        (∀ y ∈ before, y.position.offset < y.stop ∧ y.stop ≤ p.offset) ∧
        (∀ y ∈ behind, p.offset + Text.byteLength x.text ≤ y.position.offset) := by
  have hne := (scan_lexemes m source.toList).nonempty
  rw [h] at hne ⊢
  have hplace := place_append .start none front (x :: back)
  rw [place, Option.or_none, Option.or_none] at hplace
  refine ⟨_, _, _, hplace, rfl, ?_, ?_⟩
  · intro y hy
    obtain ⟨pre, post, hfront, -, -⟩ := mem_place hy
    have hpos := byteLength_pos (hne y.lexeme (by simp [hfront]))
    have hle := (place_offset_le hy).2
    rw [Position.after_offset]
    exact ⟨by rw [Placed.stop]; omega, hle⟩
  · intro y hy
    have hle := (place_offset_le hy).1
    rwa [Position.after_offset] at hle

theorem uncovered_of_gap {front back : List Lexeme} {x : Lexeme}
    (h : lexemes m source.toList = front ++ x :: back) (hx : tokenKind? x.kind = none) :
    (ofText m source).Uncovered (Text.byteLength (flatten front)) := by
  have hpos := byteLength_pos ((scan_lexemes m source.toList).nonempty x (by simp [h]))
  obtain ⟨before, behind, p, hplace, rfl, hbefore, hbehind⟩ := place_around h
  rw [Position.after_offset] at hbefore hbehind
  have hstart : Position.start.offset = 0 := rfl
  rintro t ht ⟨hle, hlt⟩
  rcases mem_tokens.mp ht with ⟨y, hy, htoken⟩ | rfl
  · obtain ⟨hp, -, hstop⟩ := Placed.token?_stop htoken
    rw [hp] at hle
    rw [hstop] at hlt
    rw [hplace, List.mem_append, List.mem_cons] at hy
    rcases hy with hy | rfl | hy
    · have := (hbefore y hy).2
      omega
    · simp [Placed.token?, Lexeme.token?, hx] at htoken
    · have := hbehind y hy
      omega
  · simp only [Token.stop, Token.finishAt] at hle hlt
    simp [Text.byteLength] at hlt
    omega

theorem gap_of_uncovered {before behind : List Char} {c : Char}
    (h : source.toList = before ++ c :: behind)
    (hu : (ofText m source).Uncovered (Text.byteLength before)) :
    ∃ front x back, lexemes m source.toList = front ++ x :: back ∧ x.text = [c] ∧
      flatten front = before ∧ tokenKind? x.kind = none := by
  have hs := scan_lexemes m source.toList
  obtain ⟨front, x, back, u, v, hxs, htext, hbefore⟩ := exists_holder (hs.flatten_eq.trans h)
  obtain ⟨before', behind', p, hplace, hp, -, -⟩ := place_around hxs
  have hgap : tokenKind? x.kind = none := by
    cases hk : tokenKind? x.kind with
    | none => rfl
    | some kind =>
      have hmem : (⟨x, p, (flatten back).head?⟩ : Placed) ∈ place .start none (lexemes m source.toList) := by
        rw [hplace]
        simp
      have htoken : (⟨x, p, (flatten back).head?⟩ : Placed).token? =
          some ⟨kind, .ofList x.value, p, .ofList x.text⟩ := by
        simp [Placed.token?, Lexeme.token?, hk]
      refine absurd ?_ (hu _ (mem_tokens.mpr (.inl ⟨_, hmem, htoken⟩)))
      have hc := c.utf8Size_pos
      rw [(Placed.token?_stop htoken).2.2, hbefore, Placed.stop, htext, hp, Position.after_offset]
      simp only [Text.byteLength_append, Text.byteLength, Position.start]
      omega
  obtain ⟨d, hd, -⟩ := (hs.fits x (by simp [hxs])).gap hgap
  have hu : u = [] ∧ d = c := by
    rw [hd] at htext
    cases u with
    | nil => exact ⟨rfl, (List.cons.inj htext).1⟩
    | cons e u => simp at htext
  exact ⟨front, x, back, hxs, by rw [hd, hu.2], by simp [hbefore, hu.1], hgap⟩

/-- What is reported at a place is reported of the lexeme there. -/
theorem errors_at {front back : List Lexeme} {x : Lexeme}
    (h : lexemes m source.toList = front ++ x :: back) :
    (ofText m source).errors.filter
        (fun d => d.position.offset == Text.byteLength (flatten front)) =
      (Placed.report? ⟨x, Position.start.after (flatten front) (flatten (x :: back)).head?,
        (flatten back).head?⟩).toList := by
  have hpos := byteLength_pos ((scan_lexemes m source.toList).nonempty x (by simp [h]))
  obtain ⟨before, behind, p, hplace, hp, hbefore, hbehind⟩ := place_around h
  have hoffset : p.offset = Text.byteLength (flatten front) := by
    rw [hp, Position.after_offset]
    exact Nat.zero_add _
  have elsewhere : ∀ ys : List Placed, (∀ y ∈ ys, y.position.offset ≠ p.offset) →
      (ys.filterMap Placed.report?).filter (fun d => d.position.offset == p.offset) = [] := by
    intro ys hys
    rw [List.filter_eq_nil_iff]
    intro d hd
    obtain ⟨y, hy, hreport⟩ := List.mem_filterMap.mp hd
    obtain ⟨problem, -, rfl⟩ := Option.map_eq_some_iff.mp hreport
    simp [hys y hy]
  have hfront := elsewhere before fun y hy => by have := hbefore y hy; omega
  have hback := elsewhere behind fun y hy => by have := hbehind y hy; omega
  rw [ofText_errors, hplace, ← hoffset, List.filterMap_append, List.filter_append, hfront,
    List.filterMap_cons, List.nil_append, ← hp]
  split
  · next hnone => rw [hback, hnone, Option.toList_none]
  · next d hreport =>
    obtain ⟨problem, -, rfl⟩ := Option.map_eq_some_iff.mp hreport
    rw [hreport, Option.toList_some, List.filter_cons_of_pos (by simp), hback]

theorem strayReports_at {front back : List Lexeme} {x : Lexeme}
    (h : lexemes m source.toList = front ++ x :: back) (hx : tokenKind? x.kind = none) :
    (ofText m source).strayReports (Text.byteLength (flatten front)) =
      if x.kind = .stray then
        x.text.map fun c => (Problem.strayCharacter c).diagnose
          (Position.start.after (flatten front) (flatten (x :: back)).head?)
      else [] := by
  rw [strayReports, ← List.filter_filter, errors_at h]
  by_cases hk : x.kind = .stray
  · obtain ⟨c, hc, -⟩ := ((scan_lexemes m source.toList).fits x (by simp [h])).gap hx
    rw [if_pos hk, Placed.report_of_stray hk hc, hc]
    rfl
  · rw [if_neg hk, List.filter_eq_nil_iff]
    intro d hd hcode
    exact hk (Placed.stray_of_report (Option.mem_toList.mp hd) (by simpa using hcode))

/-- A separator stands in a parameter list. -/
theorem inParameters_of_separator {front back : List Lexeme} {x : Lexeme}
    (h : lexemes m source.toList = front ++ x :: back) (hx : x.kind = .separator) :
    (ofText m source).InParameters m (flatten front) := by
  cases (scan_lexemes m source.toList).around h with
  | head hk _ => simp [hx, leads] at hk
  | code hk _ _ _ _ => simp [hx] at hk
  | @operand pre code line rest more ops after hc hs hf ho hb =>
    have hcode : takesContent code = false := by
      rw [Bool.eq_false_iff]
      intro hcode
      have hkind := operands_kind (ho ▸ by simp : x ∈ operands m code line)
      rw [if_pos hcode, hx] at hkind
      simp at hkind
    rw [hf, List.append_cons] at h
    have hmem := place_mem .start none (pre ++ [⟨.marker, [m.marker]⟩]) ⟨.code, code⟩
      (ops ++ x :: back)
    have hlist : pre ++ [⟨.marker, [m.marker]⟩] ++ ⟨.code, code⟩ :: (ops ++ x :: back) =
        lexemes m source.toList := by
      rw [h]; simp
    rw [hlist] at hmem
    have hvalue : String.ofList code ≠ "FD" ∧ String.ofList code ≠ "FV" := by
      rw [← not_or, ← takesContent_iff]
      simp [hcode]
    refine ⟨_, mem_tokens.mpr (.inl ⟨_, hmem, rfl⟩), rfl, hvalue.1, hvalue.2,
      flatten pre ++ m.marker :: code, flatten ops, by simp [hf], ?_, ?_⟩
    · simp only [Token.stop, Position.after_offset, flatten_append, String.toList_ofList,
        Text.byteLength_append]
      simp [Text.byteLength, Position.start, Nat.add_assoc]
    · intro d hd
      have hline : d ∈ line := by
        rw [← flatten_operands m code line, ho, flatten_append]
        exact List.mem_append_left _ hd
      simpa [isOperandChar] using hc.line d hline

/-- The lexeme of a code token, and the text up to its end. -/
theorem lexeme_of_code {t : Token} (ht : t ∈ (ofText m source).tokens) (hkind : t.kind = .code) :
    ∃ front y back, lexemes m source.toList = (front ++ [y]) ++ back ∧ y.kind = .code ∧
      t.value = .ofList y.text ∧ t.stop = Text.byteLength (flatten (front ++ [y])) := by
  obtain ⟨y, hy, htoken⟩ : ∃ y ∈ place .start none (lexemes m source.toList), y.token? = some t := by
    rcases mem_tokens.mp ht with hy | rfl
    · exact hy
    · cases hkind
  obtain ⟨front, back, hxs, hp, -⟩ := mem_place hy
  have hstop := (Placed.token?_stop htoken).2.2
  obtain ⟨kind, hcode, rfl⟩ := Placed.token?_eq htoken
  obtain rfl : kind = .code := hkind
  have hykind : y.lexeme.kind = .code := by
    cases hk : y.lexeme.kind <;> simp_all [tokenKind?]
  refine ⟨front, y.lexeme, back, by rw [hxs]; simp, hykind, ?_, ?_⟩
  · simp [value, hykind]
  · rw [hstop, Placed.stop, hp, Position.after_offset]
    simp [Position.start]

/-- A stray character stands in no parameter list: the operands of a command would
have taken it in. -/
theorem not_inParameters_of_stray {front back : List Lexeme} {x : Lexeme} {c : Char}
    (h : lexemes m source.toList = front ++ x :: back) (hx : x.kind = .stray) (ht : x.text = [c]) :
    ¬(ofText m source).InParameters m (flatten front) := by
  rintro ⟨t, hmem, hkind, hFD, hFV, before, between, hbefore, hstop, hbetween⟩
  have hs := scan_lexemes m source.toList
  have hoperand : isOperandChar m c := hs.isOperandChar_of_gap h (by rw [hx]; rfl) ht
  obtain ⟨pre, y, post, hpre, hykind, hvalue, hcode⟩ := lexeme_of_code hmem hkind
  have hcontent : takesContent y.text = false := by
    rw [Bool.eq_false_iff, Ne, takesContent_iff, ← hvalue]
    exact not_or.mpr ⟨hFD, hFV⟩
  have htext : flatten (pre ++ [y]) = before := by
    have hparts : flatten (pre ++ [y]) ++ flatten post =
        before ++ (between ++ flatten (x :: back)) := by
      rw [← List.append_assoc before, ← hbefore, ← flatten_append, ← flatten_append, ← h, hpre]
    exact eq_of_byteLength hparts (hcode.symm.trans hstop)
  -- the lexemes between the code and the stray character
  obtain ⟨mid, hmid⟩ := prefix_of_flatten
    (fun z hz => hs.nonempty z (by rw [hpre]; exact List.mem_append_left _ hz))
    (hpre.symm.trans h) (by rw [htext, hbefore])
  have hflat : flatten mid = between := by
    have := congrArg flatten hmid
    rw [flatten_append, htext, hbefore] at this
    exact (List.append_cancel_left this).symm
  have hmidchar : ∀ d ∈ flatten mid, isOperandChar m d := by
    intro d hd
    rw [hflat] at hd
    exact isOperandChar_iff.mpr (hbetween d hd)
  rw [h, hmid, List.append_assoc, List.append_assoc] at hs
  have hbehind := hs.operand_behind hykind hcontent hmidchar ht hoperand
  simp [hx] at hbehind

theorem skipped_of_uncovered {before behind : List Char} {c : Char}
    (h : source.toList = before ++ c :: behind)
    (hu : (ofText m source).Uncovered (Text.byteLength before)) :
    (ofText m source).Skipped m before c := by
  obtain ⟨front, x, back, hxs, ht, rfl, hgap⟩ := gap_of_uncovered h hu
  have hreports := strayReports_at hxs hgap
  obtain ⟨d, hd, hkind⟩ := ((scan_lexemes m source.toList).fits x (by simp [hxs])).gap hgap
  obtain rfl : c = d := by simpa [ht] using hd
  rcases hkind with ⟨hk, hblank⟩ | ⟨hk, hseparates⟩ | ⟨hk, hblank⟩
  · rw [if_neg (by simp [hk])] at hreports
    exact .blank hblank (fun hdelim => by simp [hdelim.not_blank] at hblank) hreports
  · rw [if_neg (by simp [hk])] at hreports
    by_cases hblank : Text.isBlank c
    · exact .blank hblank (fun hdelim => by simp [hdelim.not_blank] at hblank) hreports
    · have hdelim : c = m.delimiter := by simpa [separates, hblank] using hseparates
      rw [Bool.not_eq_true] at hblank
      exact .delimiter hblank ⟨hdelim, hblank, inParameters_of_separator hxs hk⟩ hreports
  · rw [if_pos hk, ht, flatten_cons, ht] at hreports
    exact .stray hblank (fun hdelim => not_inParameters_of_stray hxs hk ht hdelim.place) hreports

theorem ofText_ordered (m : Marks) (source : String) :
    (ofText m source).tokens.Pairwise fun a b => a.stop ≤ b.position.offset := by
  rw [ofText_tokens, List.pairwise_append, List.pairwise_filterMap]
  refine ⟨(place_ordered _ _ _).imp ?_, List.pairwise_singleton _ _, ?_⟩
  · intro x y hxy t ht u hu
    rwa [(Placed.token?_stop ht).2.2, (Placed.token?_stop hu).1]
  · intro t ht u hu
    obtain ⟨x, hx, ht⟩ := List.mem_filterMap.mp ht
    obtain rfl := List.mem_singleton.mp hu
    have hle := (place_offset_le hx).2
    rwa [flatten_lexemes, ← Position.after_offset _ _ none, ← (Placed.token?_stop ht).2.2] at hle

/-- Lexical errors are told in the order of the source, at most one of a character. -/
theorem ofText_errors_ordered (m : Marks) (source : String) :
    (ofText m source).errors.Pairwise fun a b => a.position.offset < b.position.offset := by
  rw [ofText_errors, List.pairwise_filterMap]
  refine (place_ordered _ _ _).imp_of_mem ?_
  intro x y hx _ hxy d hd e he
  obtain ⟨front, back, hxs, -, -⟩ := mem_place hx
  have hpos := byteLength_pos ((scan_lexemes m source.toList).nonempty x.lexeme (by simp [hxs]))
  obtain ⟨problem, -, rfl⟩ := Option.map_eq_some_iff.mp hd
  obtain ⟨problem', -, rfl⟩ := Option.map_eq_some_iff.mp he
  exact Nat.lt_of_lt_of_le (Nat.lt_add_of_pos_right hpos) hxy

theorem ofText_exact {t : Token} (ht : t ∈ (ofText m source).tokens) :
    ∃ before behind, source.toList = before ++ (t.raw.toList ++ behind) ∧
      t.position.offset = Text.byteLength before := by
  rcases mem_tokens.mp ht with ⟨x, hx, htoken⟩ | rfl
  · obtain ⟨front, back, hxs, hp, -⟩ := mem_place hx
    obtain ⟨hposition, hraw, -⟩ := Placed.token?_stop htoken
    refine ⟨flatten front, flatten back, ?_, ?_⟩
    · rw [hraw, ← flatten_cons, ← flatten_append, ← hxs, flatten_lexemes]
    · rw [hposition, hp, Position.after_offset]
      exact Nat.zero_add _
  · refine ⟨source.toList, [], by simp [Token.finishAt], ?_⟩
    rw [Token.finishAt, Position.after_offset]
    exact Nat.zero_add _

theorem ofText_ending (m : Marks) (source : String) :
    ∃ front p, (ofText m source).tokens = front ++ [.finishAt p] ∧
      p.offset = Text.byteLength source.toList ∧
      ∀ t ∈ front, t.kind ≠ .finish ∧ t.position.offset < t.stop := by
  refine ⟨_, _, ofText_tokens m source, ?_, ?_⟩
  · rw [Position.after_offset]
    exact Nat.zero_add _
  · intro t ht
    obtain ⟨x, hx, htoken⟩ := List.mem_filterMap.mp ht
    obtain ⟨front, back, hxs, -, -⟩ := mem_place hx
    have hpos := byteLength_pos ((scan_lexemes m source.toList).nonempty x.lexeme (by simp [hxs]))
    obtain ⟨hposition, -, hstop⟩ := Placed.token?_stop htoken
    obtain ⟨kind, hkind, rfl⟩ := Placed.token?_eq htoken
    refine ⟨?_, by rw [hstop, Placed.stop]; exact Nat.lt_add_of_pos_right hpos⟩
    rintro rfl
    cases hk : x.lexeme.kind <;> simp [hk, tokenKind?] at hkind

theorem ofText_reported {d : Diagnostic} (hd : d ∈ (ofText m source).errors)
    (hcode : d.code = "ZPL0001") :
    ∃ before c behind, source.toList = before ++ c :: behind ∧
      d.position = Position.start.after before (some c) ∧
      (ofText m source).Uncovered (Text.byteLength before) := by
  rw [ofText_errors] at hd
  obtain ⟨x, hx, hreport⟩ := List.mem_filterMap.mp hd
  have hstray := Placed.stray_of_report hreport hcode
  obtain ⟨front, back, hxs, hp, -⟩ := mem_place hx
  have hgap : tokenKind? x.lexeme.kind = none := by rw [hstray]; rfl
  obtain ⟨c, hc, -⟩ := ((scan_lexemes m source.toList).fits x.lexeme (by simp [hxs])).gap hgap
  refine ⟨flatten front, c, flatten back, ?_, ?_, uncovered_of_gap hxs hgap⟩
  · rw [← flatten_lexemes m source.toList, hxs, flatten_append, flatten_cons, hc]
    rfl
  · rw [Placed.report_of_stray hstray hc] at hreport
    obtain rfl := Option.some.inj hreport
    simp [hp, hc]

/-- The tokens, the white space, the delimiters and the reported characters of a
source make up the whole of it, without overlap. -/
theorem ofText_covers (m : Marks) (source : String) :
    (ofText m source).Covers m source.toList where
  ordered := ofText_ordered m source
  exact _ ht := ofText_exact ht
  ending := ofText_ending m source
  skipped _ _ _ h hu := skipped_of_uncovered h hu
  reported _ hd hcode := ofText_reported hd hcode

end TokenStream
end Zpl
