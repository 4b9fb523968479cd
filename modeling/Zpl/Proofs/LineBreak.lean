import Zpl.Proofs.Relocation

/-! Tokenizing composes at line breaks. A line feed ends every stretch of text but a block
comment that nothing closes, and what stands behind it is scanned from anew
(`Scan.append_break`). So two texts with a line feed between them have the tokens and
errors of the one and then of the other, moved down (`ofText_break`). -/

namespace Zpl

/-- The number of line breaks of a text. -/
def Text.lineBreaks : List Char → Nat
  | [] => 0
  | c :: cs => (if Position.endsLine c cs.head? then 1 else 0) + lineBreaks cs

def Text.lineCount (cs : List Char) : Nat :=
  1 + lineBreaks cs

/-! ## Moving down -/

namespace Position

/-- The position so many lines and bytes further on. -/
def shift (lines bytes : Nat) (p : Position) : Position :=
  ⟨p.line + lines, p.column, p.offset + bytes⟩

theorem shift_step (lines bytes : Nat) (p : Position) (c : Char) (next : Option Char) :
    (p.step c next).shift lines bytes = (p.shift lines bytes).step c next := by
  unfold step
  split
  · simp only [shift, Nat.add_right_comm]
  · simp only [shift, Nat.add_right_comm]

theorem shift_after (lines bytes : Nat) (p : Position) (cs : List Char) (next : Option Char) :
    (p.after cs next).shift lines bytes = (p.shift lines bytes).after cs next := by
  induction cs generalizing p with
  | nil => rfl
  | cons c cs ih => rw [after, after, ih, shift_step]

theorem after_line (p : Position) (cs : List Char) :
    (p.after cs none).line = p.line + Text.lineBreaks cs := by
  induction cs generalizing p with
  | nil => rfl
  | cons c cs ih =>
    rw [after, ih, Option.or_none, step, Text.lineBreaks]
    split
    · exact Nat.add_assoc _ _ _
    · rw [Nat.zero_add]

/-- What stands behind a text matters for its end only if a carriage return ends it. -/
theorem after_next {cs : List Char} (h : cs.getLast? ≠ some '\r') (p : Position)
    (next next' : Option Char) : p.after cs next = p.after cs next' := by
  induction cs generalizing p with
  | nil => rfl
  | cons c cs ih =>
    cases cs with
    | nil =>
      have hc : c ≠ '\r' := by simpa using h
      simp [after, step, endsLine, hc]
    | cons d cs =>
      rw [List.getLast?_cons_cons] at h
      exact ih h _

/-- Behind a line feed a line starts. -/
theorem after_break (p : Position) (next : Option Char) :
    p.after ['\n'] next = start.shift p.line (p.offset + 1) := by
  have hsize : '\n'.utf8Size = 1 := rfl
  simp only [after, step, endsLine, start, shift, hsize]
  simp [Nat.add_comm]

end Position

namespace Placed

/-- A placed lexeme so many lines and bytes further on. -/
def shift (lines bytes : Nat) (x : Placed) : Placed :=
  { x with position := x.position.shift lines bytes }

theorem token?_shift (lines bytes : Nat) (x : Placed) :
    (x.shift lines bytes).token? = x.token?.map (Token.move (Position.shift lines bytes)) := by
  simp only [token?, Lexeme.token?, Option.map_map]
  rfl

/-- The wording of a lexical error does not tell its place. -/
theorem report?_shift (lines bytes : Nat) (x : Placed) :
    (x.shift lines bytes).report? =
      x.report?.map (Diagnostic.move (Position.shift lines bytes)) := by
  simp only [report?, shift, Lexeme.problem?]
  split <;> rfl

end Placed

namespace Lexeme

theorem place_shift (lines bytes : Nat) (p : Position) (next : Option Char) (xs : List Lexeme) :
    place (p.shift lines bytes) next xs = (place p next xs).map (Placed.shift lines bytes) := by
  induction xs generalizing p with
  | nil => rfl
  | cons x xs ih =>
    rw [place, place, List.map_cons, ← Position.shift_after, ih]
    rfl

/-! ## Scanning over a line break -/

variable {m : Marks}

theorem startsLike_break (cs rest : List Char) : StartsLike cs (cs ++ '\n' :: rest) := by
  cases cs with
  | nil => exact .inr rfl
  | cons c cs => exact .inl rfl

theorem IsCommand.append_break {code line rest : List Char} (h : IsCommand m code line rest)
    (more : List Char) : IsCommand m code line (rest ++ '\n' :: more) := by
  refine ⟨h.code.congr ?_, h.line, h.ends.congr (startsLike_break rest more)⟩
  intro c hc
  rw [← List.append_assoc] at hc
  rcases startsLike_break (line ++ rest) more with hhead | hbreak
  · exact .inl (hhead ▸ hc)
  · obtain rfl : '\n' = c := Option.some.inj (hbreak.symm.trans hc)
    exact .inr rfl

theorem getLast?_append_ne {a b : List Char} {c : Char} (h : (a ++ b).getLast? ≠ some c) :
    b.getLast? ≠ some c := by
  intro hb
  rw [List.getLast?_append, hb] at h
  exact h rfl

/-- A line feed ends what stands in front of it and is a lexeme of its own. -/
theorem Scan.append_break {cs rest : List Char} {xs ys : List Lexeme}
    (hm : Text.isLineBreak m.marker = false) (h : Scan m cs xs) (hend : cs.getLast? ≠ some '\r')
    (hclosed : ∀ x ∈ xs, x.kind ≠ .openComment) (hrest : Scan m rest ys) :
    Scan m (cs ++ '\n' :: rest) (xs ++ ⟨.lineBreak, ['\n']⟩ :: ys) := by
  have hbreak : '\n' ≠ m.marker := by
    intro heq
    rw [← heq] at hm
    cases hm
  induction h with
  | nil => exact .trivia hbreak rfl hrest
  | @loneMarker cs xs hcode hs ih =>
    have hscan := ih (getLast?_append_ne (a := [m.marker]) hend) (List.forall_mem_cons.mp hclosed).2
    exact .loneMarker (codeLength_eq_zero hcode (startsLike_break cs rest)) hscan
  | @blank c cs xs hp hb hs ih =>
    have hscan := ih (getLast?_append_ne (a := [c]) hend) (List.forall_mem_cons.mp hclosed).2
    exact .blank (hp.congr (startsLike_break cs rest)) hb hscan
  | @stray c cs xs hp hb hs ih =>
    have hscan := ih (getLast?_append_ne (a := [c]) hend) (List.forall_mem_cons.mp hclosed).2
    exact .stray (hp.congr (startsLike_break cs rest)) hb hscan
  | @command code line behind xs hc hs ih =>
    have hlast : (code ++ (line ++ behind)).getLast? ≠ some '\r' :=
      getLast?_append_ne (a := [m.marker]) hend
    have hscan := ih (getLast?_append_ne (getLast?_append_ne hlast))
      fun x hx => hclosed x (by simp [hx])
    have hcommand := Scan.command (hc.append_break rest) hscan
    simpa using hcommand
  | @trivia c cs x behind xs hc ht hs ih =>
    rw [(trivia?_eq ht).1, List.append_assoc]
    rw [(trivia?_eq ht).1] at hend
    have hscan := ih (getLast?_append_ne hend) (List.forall_mem_cons.mp hclosed).2
    have htrivia : trivia? (x.text ++ (behind ++ '\n' :: rest)) =
        some (x, behind ++ '\n' :: rest) := by
      refine trivia?_cut ht ?_
      cases behind with
      | cons d behind => exact .inl rfl
      | nil =>
        refine .inr ⟨rfl, hclosed x List.mem_cons_self, fun hreturn => ?_⟩
        rw [hreturn] at hend
        exact hend rfl
    exact .skip hc ht htrivia hscan

/-! ## What the lexemes before the break give -/

/-- Only what is said of a marker without a code depends on what stands behind a lexeme. -/
theorem problem?_next {x : Lexeme} (h : x.kind ≠ .loneMarker) (next next' : Option Char) :
    x.problem? next = x.problem? next' := by
  unfold problem?
  split <;> simp_all

theorem report?_summary (x : Lexeme) (p : Position) (next next' : Option Char) :
    (Placed.report? ⟨x, p, next⟩).map Diagnostic.summary =
      (Placed.report? ⟨x, p, next'⟩).map Diagnostic.summary := by
  by_cases hlone : x.kind = .loneMarker
  · cases htext : x.text <;>
      simp [Placed.report?, problem?, hlone, htext, Diagnostic.summary, Problem.code,
        Problem.severity]
  · simp only [Placed.report?]
    rw [problem?_next hlone next next']

theorem reports_summary {xs : List Lexeme} (h : ∀ x ∈ xs, x.text ≠ []) (p : Position)
    (next next' : Option Char) :
    ((place p next xs).filterMap Placed.report?).map Diagnostic.summary =
      ((place p next' xs).filterMap Placed.report?).map Diagnostic.summary := by
  rcases List.eq_nil_or_concat xs with rfl | ⟨front, x, rfl⟩
  · rfl
  · have hx : x.text ≠ [] := h x (by simp)
    rw [List.concat_eq_append, place_concat _ _ _ hx, place_concat _ _ _ hx, List.map_filterMap,
      List.map_filterMap, List.filterMap_append, List.filterMap_append, List.filterMap_cons,
      List.filterMap_cons, report?_summary x _ next next']

theorem reports_next {front : List Lexeme} {x : Lexeme} (hx : x.text ≠ [])
    (hlone : x.kind ≠ .loneMarker) (p : Position) (next next' : Option Char) :
    (place p next (front ++ [x])).filterMap Placed.report? =
      (place p next' (front ++ [x])).filterMap Placed.report? := by
  rw [place_concat _ _ _ hx, place_concat _ _ _ hx]
  simp only [List.filterMap_append, List.filterMap_cons, Placed.report?]
  rw [problem?_next hlone next next']

end Lexeme

namespace TokenStream

open Lexeme (place flatten)

/-- A line break behind the source ends all that is open in it. -/
structure BreaksOff (m : Marks) (source : String) : Prop where
  marker : Text.isLineBreak m.marker = false
  ending : source.toList.getLast? ≠ some '\r'
  closed : ∀ d ∈ (ofText m source).errors, d.code ≠ "ZPL0003"

theorem exists_error_of_open {m : Marks} {source : String} {x : Lexeme}
    (hx : x ∈ Lexeme.lexemes m source.toList) (hopen : x.kind = .openComment) :
    ∃ d ∈ (ofText m source).errors, d.code = "ZPL0003" := by
  obtain ⟨front, back, hxs⟩ := List.append_of_mem hx
  have hplaced := Lexeme.place_mem .start none front x back
  rw [← hxs] at hplaced
  refine ⟨Problem.openComment.diagnose
    (Position.start.after (flatten front) ((flatten (x :: back)).head?.or none)), ?_, rfl⟩
  rw [ofText_errors, List.mem_filterMap]
  refine ⟨_, hplaced, ?_⟩
  simp only [Placed.report?, Lexeme.problem?, hopen]
  rfl

theorem BreaksOff.lexemes_eq {m : Marks} {source : String} (h : BreaksOff m source)
    (rest : List Char) :
    Lexeme.lexemes m (source.toList ++ '\n' :: rest) =
      Lexeme.lexemes m source.toList ++ ⟨.lineBreak, ['\n']⟩ :: Lexeme.lexemes m rest := by
  have hclosed : ∀ x ∈ Lexeme.lexemes m source.toList, x.kind ≠ .openComment := by
    intro x hx hopen
    obtain ⟨d, hd, hcode⟩ := exists_error_of_open hx hopen
    exact h.closed d hd hcode
  have hscan := (Lexeme.scan_lexemes m source.toList).append_break h.marker h.ending hclosed
    (Lexeme.scan_lexemes m rest)
  exact hscan.eq

/-- Where the source ends. -/
def endOf (source : String) : Position :=
  Position.start.after source.toList none

theorem endOf_offset (source : String) :
    (endOf source).offset = Text.byteLength source.toList := by
  rw [endOf, Position.after_offset]
  exact Nat.zero_add _

/-- The line of the end is the number of lines. -/
theorem endOf_line (source : String) : (endOf source).line = Text.lineCount source.toList := by
  rw [endOf, Position.after_line]
  rfl

/-- A position in what stands behind a source and a line feed. -/
def below (source : String) : Position → Position :=
  .shift (endOf source).line (Text.byteLength source.toList + 1)

theorem BreaksOff.place_eq {m : Marks} {source : String} (h : BreaksOff m source)
    (rest : List Char) :
    place .start none (Lexeme.lexemes m (source.toList ++ '\n' :: rest)) =
      place .start (some '\n') (Lexeme.lexemes m source.toList) ++
        ⟨⟨.lineBreak, ['\n']⟩, endOf source, rest.head?⟩ ::
          (place .start none (Lexeme.lexemes m rest)).map
            (Placed.shift (endOf source).line (Text.byteLength source.toList + 1)) := by
  have hend : Position.start.after source.toList (some '\n') = endOf source :=
    Position.after_next h.ending _ _ _
  have hhead : (flatten (⟨.lineBreak, ['\n']⟩ :: Lexeme.lexemes m rest)).head?.or none =
      some '\n' := rfl
  rw [h.lexemes_eq, Lexeme.place_append, hhead, Lexeme.flatten_lexemes, hend, Lexeme.place,
    Position.after_break, endOf_offset, Lexeme.place_shift, Lexeme.flatten_lexemes, Option.or_none]

section Break

variable {m : Marks} {first : String}

theorem toList_break (first second : String) :
    (first ++ "\n" ++ second).toList = first.toList ++ '\n' :: second.toList := by
  simp

theorem BreaksOff.endOf_eq (h : BreaksOff m first) (second : String) :
    endOf (first ++ "\n" ++ second) = below first (endOf second) := by
  have hend : Position.start.after first.toList (some '\n') = endOf first :=
    Position.after_next h.ending _ _ _
  rw [endOf, toList_break, Position.after_append]
  show (Position.start.after first.toList (some '\n')).after (['\n'] ++ second.toList) none = _
  rw [hend, Position.after_append, Position.after_break, endOf_offset, ← Position.shift_after]
  rfl

theorem filterMap_shift {α : Type} (f : Placed → Option α) (g : α → α) (lines bytes : Nat)
    (h : ∀ x, f (x.shift lines bytes) = (f x).map g) (xs : List Placed) :
    (xs.map (Placed.shift lines bytes)).filterMap f = (xs.filterMap f).map g := by
  rw [List.filterMap_map, List.map_filterMap]
  exact congrArg (fun k => xs.filterMap k) (funext h)

/-- The tokens of two texts with a line feed between them. -/
theorem BreaksOff.tokens_eq (h : BreaksOff m first) {front : List Token}
    (hfront : (ofText m first).tokens = front ++ [.finishAt (endOf first)])
    (second : String) :
    (ofText m (first ++ "\n" ++ second)).tokens =
      front ++ ⟨.lineBreak, "\n", endOf first, "\n"⟩ ::
        (ofText m second).tokens.map (Token.move (below first)) := by
  have hsame := Lexeme.tokens_place_next .start (some '\n') none
    (Lexeme.scan_lexemes m first.toList).nonempty
  rw [ofText_tokens] at hfront
  obtain ⟨hplace, -⟩ := List.append_inj' hfront rfl
  have hshift := filterMap_shift Placed.token? (Token.move (below first)) _ _
    (Placed.token?_shift _ _) (place .start none (Lexeme.lexemes m second.toList))
  have hfinish : Position.start.after (first.toList ++ '\n' :: second.toList) none =
      below first (endOf second) := by
    rw [← toList_break]
    exact h.endOf_eq second
  rw [ofText_tokens, ofText_tokens, toList_break, h.place_eq, hfinish, List.filterMap_append, hsame,
    hplace, List.filterMap_cons, hshift, List.map_append, List.append_assoc]
  rfl

/-- The errors of two texts with a line feed between them. -/
theorem BreaksOff.errors_eq (h : BreaksOff m first) (second : String) :
    (ofText m (first ++ "\n" ++ second)).errors =
      (place .start (some '\n') (Lexeme.lexemes m first.toList)).filterMap Placed.report? ++
        (ofText m second).errors.map (Diagnostic.move (below first)) := by
  have hshift := filterMap_shift Placed.report? (Diagnostic.move (below first)) _ _
    (Placed.report?_shift _ _) (place .start none (Lexeme.lexemes m second.toList))
  rw [ofText_errors, ofText_errors, toList_break, h.place_eq, List.filterMap_append,
    List.filterMap_cons, hshift]
  rfl

/-- Whether a marker without a code ends the source. -/
def EndsInMarker (m : Marks) (source : String) : Prop :=
  ∃ t ∈ (ofText m source).tokens, t.kind = .marker ∧ t.stop = Text.byteLength source.toList

theorem endsInMarker_of_last {front : List Lexeme} {x : Lexeme}
    (h : Lexeme.lexemes m first.toList = front ++ [x]) (hx : x.kind = .loneMarker) :
    EndsInMarker m first := by
  have hplaced := Lexeme.place_mem .start none front x []
  rw [← h] at hplaced
  have hlength := congrArg Text.byteLength (Lexeme.flatten_lexemes m first.toList)
  rw [h, Lexeme.flatten_append, Text.byteLength_append] at hlength
  have htoken : ∀ p, x.token? p = some ⟨.marker, .ofList x.value, p, .ofList x.text⟩ := by
    intro p
    rw [Lexeme.token?, hx]
    rfl
  refine ⟨⟨.marker, .ofList x.value, Position.start.after (flatten front)
    ((flatten [x]).head?.or none), .ofList x.text⟩, ?_, rfl, ?_⟩
  · rw [ofText_tokens]
    exact List.mem_append_left _ (List.mem_filterMap.mpr ⟨_, hplaced, htoken _⟩)
  · rw [← hlength, Token.stop, Position.after_offset, String.toList_ofList]
    simp [Position.start]

/-- What is reported of a source in front of a line feed. -/
theorem BreaksOff.reports (h : BreaksOff m first) (second : String) :
    ∃ told, (ofText m (first ++ "\n" ++ second)).errors =
        told ++ (ofText m second).errors.map (Diagnostic.move (below first)) ∧
      told.map Diagnostic.summary = (ofText m first).errors.map Diagnostic.summary ∧
      (¬EndsInMarker m first → told = (ofText m first).errors) := by
  have hne := (Lexeme.scan_lexemes m first.toList).nonempty
  refine ⟨_, h.errors_eq second, ?_, fun hend => ?_⟩
  · rw [ofText_errors, Lexeme.reports_summary hne .start (some '\n') none]
  · rw [ofText_errors]
    rcases List.eq_nil_or_concat (Lexeme.lexemes m first.toList) with hnil | ⟨front, x, hxs⟩
    · rw [hnil]
      rfl
    · rw [List.concat_eq_append] at hxs
      have hx : x.text ≠ [] := hne x (by simp [hxs])
      rw [hxs]
      exact Lexeme.reports_next hx (fun hkind => hend (endsInMarker_of_last hxs hkind)) _ _ _

/-- Two texts with a line feed between them have the tokens of the first, a line break
where it ended, and the tokens of the second, so many lines and bytes further on. The
errors are those of the first and then those of the second; only the wording of one of
the first can differ, if a marker without a code ended the text. -/
theorem ofText_break (h : BreaksOff m first) (second : String) :
    ∃ front p told, (ofText m first).tokens = front ++ [.finishAt p] ∧
      (ofText m (first ++ "\n" ++ second)).tokens =
        front ++ ⟨.lineBreak, "\n", p, "\n"⟩ :: (ofText m second).tokens.map
          (Token.move (.shift p.line (Text.byteLength first.toList + 1))) ∧
      (ofText m (first ++ "\n" ++ second)).errors =
        told ++ (ofText m second).errors.map
          (Diagnostic.move (.shift p.line (Text.byteLength first.toList + 1))) ∧
      told.map Diagnostic.summary = (ofText m first).errors.map Diagnostic.summary ∧
      (¬EndsInMarker m first → told = (ofText m first).errors) := by
  have hfront := ofText_tokens m first
  obtain ⟨told, herrors, hsummary, htold⟩ := h.reports second
  exact ⟨_, endOf first, told, hfront, h.tokens_eq hfront second, herrors, hsummary, htold⟩

end Break

/-- Stray text and a lone marker, before and behind a line feed. -/
theorem ofText_break_stray :
    BreaksOff .standard "$ ^FO" ∧ ¬EndsInMarker .standard "$ ^FO" ∧
      (ofText .standard ("$ ^FO" ++ "\n" ++ "^")).errors.map Diagnostic.summary =
        [("ZPL0001", .error, ⟨1, 1, 0⟩), ("ZPL0002", .error, ⟨2, 1, 6⟩)] := by
  have hbreaks : BreaksOff .standard "$ ^FO" :=
    ⟨rfl, by decide +kernel, by decide +kernel⟩
  have hend : ¬EndsInMarker .standard "$ ^FO" := by
    unfold EndsInMarker
    decide +kernel
  refine ⟨hbreaks, hend, ?_⟩
  obtain ⟨front, p, told, hfront, -, herrors, -, htold⟩ := ofText_break hbreaks "^"
  have hp : p = ⟨1, 6, 5⟩ := by
    have hlast : (ofText .standard "$ ^FO").tokens.getLast? = some (.finishAt ⟨1, 6, 5⟩) := by
      decide +kernel
    rw [hfront, List.getLast?_concat] at hlast
    exact congrArg Token.position (Option.some.inj hlast)
  rw [herrors, htold hend, hp]
  decide +kernel

end TokenStream
end Zpl
