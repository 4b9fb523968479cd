import Zpl.Proofs.Coverage
import Zpl.Proofs.Reading

/-! Positions are true. Scanning counts lines and columns one character at a time, and
what it counts is what the whole source says of the place (`ofIndex`). So every position
that reading a source tells is that of a character or of the end, and the order of
positions is that of their offsets (`parse_positions`). -/

namespace Zpl

/-- For each character of a text whether it ends a line: a line feed does, and so does a
carriage return with no line feed behind it. -/
def Text.lineEnds : List Char → List Bool
  | [] => []
  | c :: cs => decide (c = '\n' ∨ c = '\r' ∧ cs.head? ≠ some '\n') :: lineEnds cs

namespace Position

/-- The place in front of the character with index `n`, told from the whole source: the
line ends before it, the characters behind the last of these, and the bytes. -/
def ofIndex (source : List Char) (n : Nat) : Position :=
  { line := 1 + ((Text.lineEnds source).take n).count true
    column := 1 + (((Text.lineEnds source).take n).reverse.takeWhile (· == false)).length
    offset := Text.byteLength (source.take n) }

/-- The position of a character of the source, or of its end. -/
def IsTrue (source : List Char) (p : Position) : Prop :=
  ∃ n ≤ source.length, p = ofIndex source n

end Position

/-- All positions that a source is told by: those of its tokens and lexical errors, and
those of the commands, errors and warnings of its document. -/
def Parser.positions (p : Parser) (source : String) : List Position :=
  (TokenStream.ofText p.marks source).tokens.map Token.position ++
    (TokenStream.ofText p.marks source).errors.map Diagnostic.position ++
    (p.parse source).commands.map Command.position ++
    (p.parse source).metadata.errors.map Diagnostic.position ++
    (p.parse source).metadata.warnings.map Diagnostic.position

/-! ## Counting character by character -/

theorem Text.lineEnds_getElem? (source : List Char) (n : Nat) :
    (lineEnds source)[n]? = source[n]?.map fun c => Position.endsLine c source[n + 1]? := by
  induction source generalizing n with
  | nil => simp [lineEnds]
  | cons c cs ih =>
    cases n with
    | succ n => simpa [lineEnds] using ih n
    | zero =>
      have hends : decide (c = '\n' ∨ c = '\r' ∧ cs.head? ≠ some '\n') =
          Position.endsLine c cs.head? := by
        rw [Bool.eq_iff_iff]
        simp [Position.endsLine]
      rw [lineEnds, hends, List.head?_eq_getElem?]
      rfl

namespace Position

variable {source : List Char}

theorem ofIndex_succ {n : Nat} {c : Char} (h : source[n]? = some c) :
    ofIndex source (n + 1) = (ofIndex source n).step c source[n + 1]? := by
  have hends : (Text.lineEnds source).take (n + 1) =
      (Text.lineEnds source).take n ++ [endsLine c source[n + 1]?] := by
    rw [List.take_add_one, Text.lineEnds_getElem?, h]
    rfl
  have hbytes : Text.byteLength (source.take (n + 1)) =
      Text.byteLength (source.take n) + c.utf8Size := by
    rw [List.take_add_one, h, Text.byteLength_append]
    rfl
  unfold ofIndex step
  rw [hends, hbytes]
  cases endsLine c source[n + 1]? with
  | true => simp [Nat.add_assoc]
  | false => simp [Nat.add_comm]

/-- Walking over the beginning of a source ends at the true position. -/
theorem after_take {n : Nat} (h : n ≤ source.length) :
    start.after (source.take n) source[n]? = ofIndex source n := by
  induction n with
  | zero => rfl
  | succ n ih =>
    obtain ⟨c, hc⟩ : ∃ c, source[n]? = some c := ⟨_, List.getElem?_eq_getElem h⟩
    have hstart := ih (Nat.le_of_succ_le h)
    rw [hc] at hstart
    rw [ofIndex_succ hc, ← hstart, List.take_add_one, hc, after_append]
    rfl

theorem isTrue_after {a b : List Char} (h : source = a ++ b) :
    (start.after a b.head?).IsTrue source := by
  have hlength : a.length ≤ source.length := by simp [h]
  have hnext : source[a.length]? = b.head? := by
    rw [h, List.getElem?_append_right (Nat.le_refl _), Nat.sub_self, List.head?_eq_getElem?]
  have htrue := after_take hlength
  rw [hnext, h, List.take_left] at htrue
  exact ⟨a.length, hlength, by rw [htrue, h]⟩

/-! ## Order -/

/-- `p` stands before `q`, by line and column and by bytes. -/
structure Before (p q : Position) : Prop where
  place : p.line < q.line ∨ p.line = q.line ∧ p.column < q.column
  offset : p.offset < q.offset

theorem Before.trans {p q r : Position} (hpq : Before p q) (hqr : Before q r) : Before p r := by
  have hp := hpq.place
  have hq := hqr.place
  exact ⟨by omega, Nat.lt_trans hpq.offset hqr.offset⟩

theorem before_step (p : Position) (c : Char) (next : Option Char) : Before p (p.step c next) := by
  have hpos := c.utf8Size_pos
  unfold step
  split
  · exact ⟨.inl (Nat.lt_succ_self _), Nat.lt_add_of_pos_right hpos⟩
  · exact ⟨.inr ⟨rfl, Nat.lt_succ_self _⟩, Nat.lt_add_of_pos_right hpos⟩

theorem ofIndex_before {n k : Nat} (h : n < k) (hk : k ≤ source.length) :
    Before (ofIndex source n) (ofIndex source k) := by
  induction k with
  | zero => exact absurd h (Nat.not_lt_zero _)
  | succ k ih =>
    have hstep := before_step (ofIndex source k) source[k] source[k + 1]?
    rw [← ofIndex_succ (List.getElem?_eq_getElem hk)] at hstep
    rcases Nat.eq_or_lt_of_le (Nat.le_of_lt_succ h) with rfl | hlt
    · exact hstep
    · exact (ih hlt (Nat.le_of_succ_le hk)).trans hstep

theorem Before.le {p q : Position} (h : Before p q) : p.le q = true ∧ q.le p = false := by
  have hplace := h.place
  have hoffset := h.offset
  constructor
  · simp only [Position.le, Bool.or_eq_true, Bool.and_eq_true, decide_eq_true_eq, beq_iff_eq]
    omega
  · simp only [Position.le, Bool.or_eq_false_iff, Bool.and_eq_false_iff, decide_eq_false_iff_not,
      beq_eq_false_iff_ne]
    omega

theorem le_refl (p : Position) : p.le p = true := by
  simp [Position.le]

/-- Two true positions are one, or one stands before the other. -/
theorem IsTrue.trichotomy {p q : Position} (hp : p.IsTrue source) (hq : q.IsTrue source) :
    Before p q ∨ p = q ∨ Before q p := by
  obtain ⟨n, hn, rfl⟩ := hp
  obtain ⟨k, hk, rfl⟩ := hq
  rcases Nat.lt_trichotomy n k with h | rfl | h
  · exact .inl (ofIndex_before h hk)
  · exact .inr (.inl rfl)
  · exact .inr (.inr (ofIndex_before h hn))

theorem IsTrue.le_iff {p q : Position} (hp : p.IsTrue source) (hq : q.IsTrue source) :
    p.le q = true ↔ p.offset ≤ q.offset := by
  rcases hp.trichotomy hq with h | rfl | h
  · simp [h.le.1, Nat.le_of_lt h.offset]
  · simp [le_refl]
  · simp [h.le.2, h.offset]

theorem IsTrue.eq_of_offset {p q : Position} (hp : p.IsTrue source) (hq : q.IsTrue source)
    (h : p.offset = q.offset) : p = q := by
  rcases hp.trichotomy hq with hlt | heq | hlt
  · exact absurd h (Nat.ne_of_lt hlt.offset)
  · exact heq
  · exact absurd h.symm (Nat.ne_of_lt hlt.offset)

end Position

/-! ## What is told of a source -/

namespace TokenStream

open Lexeme (place flatten)

variable {m : Marks} {source : String}

theorem place_isTrue {x : Placed}
    (h : x ∈ place .start none (Lexeme.lexemes m source.toList)) :
    x.position.IsTrue source.toList := by
  obtain ⟨front, back, hxs, hposition, -⟩ := Lexeme.mem_place h
  have hsource := Lexeme.flatten_lexemes m source.toList
  rw [hxs, Lexeme.flatten_append] at hsource
  rw [hposition, Option.or_none]
  exact Position.isTrue_after hsource.symm

theorem token_isTrue {t : Token} (h : t ∈ (ofText m source).tokens) :
    t.position.IsTrue source.toList := by
  rcases mem_tokens.mp h with ⟨x, hx, ht⟩ | rfl
  · rw [(Placed.token?_stop ht).1]
    exact place_isTrue hx
  · exact Position.isTrue_after (List.append_nil _).symm

theorem error_isTrue {d : Diagnostic} (h : d ∈ (ofText m source).errors) :
    d.position.IsTrue source.toList := by
  rw [ofText_errors] at h
  obtain ⟨x, hx, hd⟩ := List.mem_filterMap.mp h
  obtain ⟨problem, -, rfl⟩ := Option.map_eq_some_iff.mp hd
  exact place_isTrue hx

end TokenStream

namespace Share

theorem marker_mem {ps : List Phrase} {s : Share} (h : s ∈ shares ps) :
    s.head.marker ∈ ps.flatMap Phrase.tokens := by
  obtain ⟨before, behind, hps⟩ := tokens_of_mem_shares h
  rw [hps]
  simp [tokens, Call.tokens]

end Share

theorem Parser.isTrue_of_mem_positions {m : Marks} {padding : Int32} {source : String} {p : Position}
    (h : p ∈ (Parser.mk .builtin m padding).positions source) : p.IsTrue source.toList := by
  obtain ⟨ps, q, htokens⟩ := TokenStream.ofText_phrases m source
  have hshare : ∀ s ∈ shares ps, s.place.position.IsTrue source.toList := by
    intro s hs
    refine TokenStream.token_isTrue (m := m) ?_
    rw [htokens]
    exact List.mem_append_left _ (Share.marker_mem hs)
  simp only [positions, parse_shares padding htokens, List.mem_append, List.mem_map,
    List.mem_flatMap] at h
  rcases h with (((⟨t, ht, rfl⟩ | ⟨d, hd, rfl⟩) | ⟨c, ⟨s, hs, rfl⟩, rfl⟩) | ⟨d, hd, rfl⟩) |
    ⟨d, ⟨s, hs, hd⟩, rfl⟩
  · exact TokenStream.token_isTrue ht
  · exact TokenStream.error_isTrue hd
  · exact hshare s hs
  · rcases hd with hd | ⟨s, hs, hd⟩
    · exact TokenStream.error_isTrue hd
    · rw [Share.errors_position hd]
      exact hshare s hs
  · rw [Share.warnings_position hd]
    exact hshare s hs

/-- The text of a token stands where its position says. -/
theorem TokenStream.token_at {m : Marks} {source : String} {t : Token}
    (h : t ∈ (ofText m source).tokens) :
    ∃ before behind, source.toList = before ++ (t.raw.toList ++ behind) ∧
      t.position = Position.ofIndex source.toList before.length := by
  obtain ⟨before, behind, hsource, hoffset⟩ := ofText_exact h
  refine ⟨before, behind, hsource, (token_isTrue h).eq_of_offset ⟨before.length, ?_, rfl⟩ ?_⟩
  · simp [hsource]
  · rw [hoffset, hsource]
    simp [Position.ofIndex]

/-- Every position told of a source is a true one, so positions are ordered as their
offsets are, and there is one position to an offset. That of a token is the place of its
text. -/
theorem parse_positions (m : Marks) (padding : Int32) (source : String) :
    (∀ p ∈ (Parser.mk .builtin m padding).positions source, p.IsTrue source.toList) ∧
      (∀ p ∈ (Parser.mk .builtin m padding).positions source,
        ∀ q ∈ (Parser.mk .builtin m padding).positions source,
          (p.le q = true ↔ p.offset ≤ q.offset) ∧ (p.offset = q.offset → p = q)) ∧
      ∀ t ∈ (TokenStream.ofText m source).tokens, ∃ before behind,
        source.toList = before ++ (t.raw.toList ++ behind) ∧
          t.position = Position.ofIndex source.toList before.length := by
  have htrue : ∀ p ∈ (Parser.mk .builtin m padding).positions source, p.IsTrue source.toList :=
    fun _ => Parser.isTrue_of_mem_positions
  refine ⟨htrue, fun p hp q hq => ⟨?_, ?_⟩, fun t ht => TokenStream.token_at ht⟩
  · exact (htrue p hp).le_iff (htrue q hq)
  · exact (htrue p hp).eq_of_offset (htrue q hq)

end Zpl
