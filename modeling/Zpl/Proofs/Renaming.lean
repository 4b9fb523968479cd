import Mathlib.Data.List.Basic
import Zpl.Proofs.LexicalGrammar

/-! Marker and delimiter as a choice of names. A change of characters that takes the marks
of one setting to those of another, and keeps all that the lexical grammar looks at besides,
goes through scanning lexeme by lexeme (`Scan.rename`): the renamed source has the renamed
tokens at the same positions, and the same errors (`ofText_rename`). -/

namespace Zpl

/-- The change of characters takes the marks `m` to the marks `n`. It keeps the characters
of codes, comments and line breaks, white space, and the sizes that offsets count. -/
structure Renames (r : Char → Char) (m n : Marks) : Prop where
  injective : Function.Injective r
  marker : r m.marker = n.marker
  delimiter : r m.delimiter = n.delimiter
  code : ∀ c, Lexeme.isCodeChar c → r c = c
  fixed : ∀ c ∈ ['/', '*', '\n', '\r'], r c = c
  blank : ∀ c, Text.isBlank (r c) = Text.isBlank c
  size : ∀ c, (r c).utf8Size = c.utf8Size

/-- The token with its texts renamed, where it stands. -/
def Token.rename (r : Char → Char) (t : Token) : Token :=
  { t with value := t.value.map r, raw := t.raw.map r }

theorem Token.rename_finishAt (r : Char → Char) (p : Position) :
    (finishAt p).rename r = finishAt p := by
  have hempty : "".map r = "" := by
    rw [← String.toList_inj, String.toList_map]
    rfl
  rw [rename, finishAt, hempty]

namespace Renames

variable {r : Char → Char} {m n : Marks} (h : Renames r m n)

include h

/-! ## Characters -/

/-- Nothing else is renamed to a character that is kept. -/
theorem eq_iff {d : Char} (hd : r d = d) (c : Char) : r c = d ↔ c = d := by
  constructor
  · intro hc
    exact h.injective (hc.trans hd.symm)
  · rintro rfl
    exact hd

theorem ne_marker {c : Char} (hc : c ≠ m.marker) : r c ≠ n.marker :=
  h.marker ▸ h.injective.ne hc

theorem slash : r '/' = '/' := h.fixed _ (by simp)

theorem star : r '*' = '*' := h.fixed _ (by simp)

theorem lineFeed : r '\n' = '\n' := h.fixed _ (by simp)

theorem carriageReturn : r '\r' = '\r' := h.fixed _ (by simp)

theorem isLineBreak (c : Char) : Text.isLineBreak (r c) = Text.isLineBreak c := by
  rw [Bool.eq_iff_iff]
  simp [Text.isLineBreak, h.eq_iff h.lineFeed, h.eq_iff h.carriageReturn]

theorem isCodeChar (c : Char) : Lexeme.isCodeChar (r c) = Lexeme.isCodeChar c := by
  by_cases hc : Lexeme.isCodeChar c
  · rw [h.code c hc]
  · by_cases hr : Lexeme.isCodeChar (r c)
    · exact absurd (h.injective (h.code _ hr) ▸ hr) hc
    · rw [Bool.eq_false_iff.mpr hc, Bool.eq_false_iff.mpr hr]

theorem isOperandChar (c : Char) : Lexeme.isOperandChar n (r c) = Lexeme.isOperandChar m c := by
  rw [Lexeme.isOperandChar, Lexeme.isOperandChar, h.isLineBreak, ← h.marker]
  congr 1
  rw [Bool.eq_iff_iff]
  simp [h.injective.eq_iff]

theorem separates (c : Char) : Lexeme.separates n (r c) = Lexeme.separates m c := by
  rw [Lexeme.separates, Lexeme.separates, h.blank, ← h.delimiter]
  congr 1
  rw [Bool.eq_iff_iff]
  simp [h.injective.eq_iff]

/-! ## Texts -/

theorem code_text {code : List Char} (hcode : ∀ c ∈ code, Lexeme.isCodeChar c) :
    code.map r = code :=
  (List.map_congr_left fun c hc => h.code c (hcode c hc)).trans (List.map_id _)

theorem head?_ne {cs : List Char} {d : Char} (hd : r d = d) (hcs : cs.head? ≠ some d) :
    (cs.map r).head? ≠ some d := by
  rw [List.head?_map]
  intro hhead
  obtain ⟨c, hc, hrc⟩ := Option.map_eq_some_iff.mp hhead
  exact hcs (hc.trans (congrArg some ((h.eq_iff hd c).mp hrc)))

theorem codeLength (cs : List Char) : Lexeme.codeLength (cs.map r) = Lexeme.codeLength cs := by
  have hA : r 'A' = 'A' := h.code _ rfl
  have hat : r '@' = '@' := h.code _ rfl
  cases cs with
  | nil => rfl
  | cons c cs =>
    have hjoins : Lexeme.joins (r c) (cs.map r).head? = Lexeme.joins c cs.head? := by
      simp only [Lexeme.joins, h.eq_iff hA, List.head?_map]
      cases cs.head? with
      | none => rfl
      | some d =>
        have hd : (r d == '@') = (d == '@') := by
          rw [Bool.eq_iff_iff]
          simp [h.eq_iff hat]
        simp [hd, h.isCodeChar]
    rw [List.map_cons, Lexeme.codeLength_cons, Lexeme.codeLength_cons, h.isCodeChar, hjoins]

theorem trimEnd (cs : List Char) : Text.trimEnd (cs.map r) = (Text.trimEnd cs).map r := by
  have hblank : Text.isBlank ∘ r = Text.isBlank := funext h.blank
  rw [Text.trimEnd, Text.trimEnd, ← List.map_reverse, List.dropWhile_map, hblank, List.map_reverse]

theorem endBlanks (cs : List Char) : Text.endBlanks (cs.map r) = (Text.endBlanks cs).map r := by
  have hblank : Text.isBlank ∘ r = Text.isBlank := funext h.blank
  rw [Text.endBlanks, Text.endBlanks, ← List.map_reverse, List.takeWhile_map, hblank,
    List.map_reverse]

theorem splitAtClose? (cs : List Char) :
    Lexeme.splitAtClose? (cs.map r) =
      (Lexeme.splitAtClose? cs).map fun (body, rest) => (body.map r, rest.map r) := by
  fun_induction Lexeme.splitAtClose? cs with
  | case1 rest =>
    rw [List.map_cons, List.map_cons, h.star, h.slash]
    rfl
  | case2 c cs hopen ih =>
    have hopened : ∀ rest, r c = '*' → cs.map r = '/' :: rest → False := by
      intro rest hstar hrest
      obtain ⟨d, ds, rfl, hd, -⟩ := List.map_eq_cons_iff.mp hrest
      exact hopen ds ((h.eq_iff h.star c).mp hstar) (by rw [(h.eq_iff h.slash d).mp hd])
    rw [List.map_cons, Lexeme.splitAtClose?.eq_2 _ _ hopened, ih, Option.map_map, Option.map_map]
    rfl
  | case3 => rfl

theorem endsLine (c : Char) (next : Option Char) :
    Position.endsLine (r c) (next.map r) = Position.endsLine c next := by
  have hnext : next.map r = some '\n' ↔ next = some '\n' := by
    cases next with
    | none => simp
    | some d => simp [h.eq_iff h.lineFeed]
  rw [Bool.eq_iff_iff]
  simp [Position.endsLine, h.eq_iff h.lineFeed, h.eq_iff h.carriageReturn, hnext]

/-- Renaming a text moves nothing behind it. -/
theorem after (p : Position) (cs : List Char) (next : Option Char) :
    p.after (cs.map r) (next.map r) = p.after cs next := by
  induction cs generalizing p with
  | nil => rfl
  | cons c cs ih =>
    have hhead : (cs.map r).head?.or (next.map r) = (cs.head?.or next).map r := by
      rw [List.head?_map, Option.map_or]
    have hstep : p.step (r c) ((cs.head?.or next).map r) = p.step c (cs.head?.or next) := by
      simp only [Position.step, h.endsLine, h.size]
    rw [List.map_cons, Position.after, Position.after, hhead, hstep, ih]

end Renames

/-! ## Scanning -/

namespace Lexeme

def rename (r : Char → Char) (x : Lexeme) : Lexeme :=
  { x with text := x.text.map r }

variable {r : Char → Char} {m n : Marks}

theorem flatten_rename (r : Char → Char) (xs : List Lexeme) :
    flatten (xs.map (rename r)) = (flatten xs).map r := by
  rw [flatten, flatten, List.flatMap_map, List.map_flatMap]
  rfl

theorem parameterList_rename (h : Renames r m n) (line : List Char) :
    parameterList n (line.map r) = (parameterList m line).map (rename r) := by
  induction line with
  | nil => rfl
  | cons c cs ih =>
    simp only [List.map_cons, parameterList, h.separates, ih]
    split
    · rfl
    · cases parameterList m cs with
      | nil => rfl
      | cons x more =>
        obtain ⟨kind, text⟩ := x
        cases kind <;> rfl

theorem fieldContent_rename (h : Renames r m n) (line : List Char) :
    fieldContent (line.map r) = (fieldContent line).map (rename r) := by
  have hblanks : each .blank ((Text.endBlanks line).map r) =
      (each .blank (Text.endBlanks line)).map (rename r) := by
    simp only [each, List.map_map]
    rfl
  simp only [fieldContent, h.trimEnd, h.endBlanks, List.isEmpty_map, hblanks]
  split <;> rfl

theorem operands_rename (h : Renames r m n) (code line : List Char) :
    operands n code (line.map r) = (operands m code line).map (rename r) := by
  unfold operands
  split
  · exact fieldContent_rename h line
  · exact parameterList_rename h line

theorem trivia?_rename_none (h : Renames r m n) {c : Char} {cs : List Char}
    (htrivia : trivia? (c :: cs) = none) : trivia? (r c :: cs.map r) = none := by
  obtain ⟨hfeed, hreturn, hslash⟩ := trivia?_eq_none.mp htrivia
  refine trivia?_eq_none.mpr ⟨?_, ?_, fun hc => ?_⟩
  · rwa [Ne, h.eq_iff h.lineFeed]
  · rwa [Ne, h.eq_iff h.carriageReturn]
  · obtain ⟨hline, hblock⟩ := hslash ((h.eq_iff h.slash c).mp hc)
    exact ⟨h.head?_ne h.slash hline, h.head?_ne h.star hblock⟩

/-- Comments and line breaks of a renamed text are those of the text. -/
theorem trivia?_rename (h : Renames r m n) {cs rest : List Char} {x : Lexeme}
    (htrivia : trivia? cs = some (x, rest)) :
    trivia? (cs.map r) = some (x.rename r, rest.map r) := by
  refine trivia?_iff.mpr ?_
  cases trivia?_iff.mp htrivia with
  | pair => simpa [rename, h.carriageReturn, h.lineFeed] using Trivia.pair
  | carriageReturn hrest =>
    have hpaired : (rest.map r).head? ≠ some '\n' := h.head?_ne h.lineFeed hrest
    simpa [rename, h.carriageReturn] using Trivia.carriageReturn hpaired
  | lineFeed => simpa [rename, h.lineFeed] using Trivia.lineFeed
  | @line body _ hbody hrest =>
    have hbody' : ∀ c ∈ body.map r, Text.isLineBreak c = false := by
      simpa [h.isLineBreak] using hbody
    have hrest' : ∀ c, (rest.map r).head? = some c → Text.isLineBreak c := by
      simpa [h.isLineBreak] using hrest
    simpa [rename, h.slash] using Trivia.line hbody' hrest'
  | @block cs body _ hclose =>
    have hsplit : splitAtClose? (cs.map r) = some (body.map r, rest.map r) := by
      rw [h.splitAtClose?, hclose, Option.map_some]
    simpa [rename, h.slash, h.star] using Trivia.block hsplit
  | @unclosed cs hclose =>
    have hsplit : splitAtClose? (cs.map r) = none := by
      rw [h.splitAtClose?, hclose, Option.map_none]
    simpa [rename, h.slash, h.star] using Trivia.unclosed hsplit

theorem IsCommand.rename (h : Renames r m n) {code line rest : List Char}
    (hc : IsCommand m code line rest) : IsCommand n code (line.map r) (rest.map r) := by
  have hcode := h.code_text hc.code.isCode.chars
  refine ⟨⟨hc.code.nonempty, ?_⟩, fun c hmem => ?_, fun c hhead => ?_⟩
  · rw [← List.map_append, ← hcode, ← List.map_append, h.codeLength, hc.code.length, hcode]
  · obtain ⟨d, hd, rfl⟩ := List.mem_map.mp hmem
    rw [h.isOperandChar]
    exact hc.line d hd
  · rw [List.head?_map] at hhead
    obtain ⟨d, hd, rfl⟩ := Option.map_eq_some_iff.mp hhead
    rw [h.isOperandChar]
    exact hc.ends d hd

theorem Plain.rename (h : Renames r m n) {c : Char} {cs : List Char} (hp : Plain m c cs) :
    Plain n (r c) (cs.map r) :=
  ⟨h.ne_marker hp.not_marker, trivia?_rename_none h hp.not_trivia⟩

/-- A renamed text is made of the renamed lexemes. -/
theorem Scan.rename (h : Renames r m n) {cs : List Char} {xs : List Lexeme} (hs : Scan m cs xs) :
    Scan n (cs.map r) (xs.map (Lexeme.rename r)) := by
  have hsingle : ∀ kind c, Lexeme.rename r ⟨kind, [c]⟩ = ⟨kind, [r c]⟩ := fun _ _ => rfl
  induction hs with
  | nil => exact .nil
  | loneMarker hcode _ ih =>
    rw [List.map_cons, List.map_cons, hsingle, h.marker]
    exact .loneMarker ((h.codeLength _).trans hcode) ih
  | @command code line rest xs hc _ ih =>
    have hcode := h.code_text hc.code.isCode.chars
    have hword : Lexeme.rename r ⟨.code, code⟩ = ⟨.code, code⟩ := congrArg (Lexeme.mk .code) hcode
    simp only [List.map_cons, List.map_append, hsingle, hword, hcode, h.marker,
      ← operands_rename h]
    exact .command (hc.rename h) ih
  | trivia hc ht _ ih =>
    exact .trivia (h.ne_marker hc) (trivia?_rename h ht) ih
  | blank hp hb _ ih => exact .blank (hp.rename h) ((h.blank _).trans hb) ih
  | stray hp hb _ ih => exact .stray (hp.rename h) ((h.blank _).trans hb) ih

/-! ## Tokens -/

theorem value_rename (h : Renames r m n) (x : Lexeme) : (x.rename r).value = x.value.map r := by
  obtain ⟨kind, text⟩ := x
  cases kind <;> simp [value, rename, h.lineFeed, List.map_dropLast]

theorem token?_rename (h : Renames r m n) (x : Lexeme) (p : Position) :
    (x.rename r).token? p = (x.token? p).map (Token.rename r) := by
  have hkind : (x.rename r).kind = x.kind := rfl
  have hmap : ∀ cs : List Char, String.ofList (cs.map r) = (String.ofList cs).map r := by
    intro cs
    rw [← String.toList_inj, String.toList_map, String.toList_ofList, String.toList_ofList]
  rw [token?, token?, hkind, value_rename h, Option.map_map]
  congr 1
  funext kind
  simp [Token.rename, rename, hmap]

/-- What is reported of a lexeme, but for the wording. -/
theorem report?_rename (r : Char → Char) (x : Placed) :
    (Placed.report? ⟨x.lexeme.rename r, x.position, x.next.map r⟩).map Diagnostic.summary =
      x.report?.map Diagnostic.summary := by
  obtain ⟨⟨kind, text⟩, p, next⟩ := x
  cases text with
  | nil => cases kind <;> rfl
  | cons c cs => cases kind <;> rfl

theorem place_rename (h : Renames r m n) (p : Position) (next : Option Char) (xs : List Lexeme) :
    place p (next.map r) (xs.map (rename r)) =
      (place p next xs).map fun x => ⟨x.lexeme.rename r, x.position, x.next.map r⟩ := by
  induction xs generalizing p with
  | nil => rfl
  | cons x xs ih =>
    have hhead : (flatten (xs.map (rename r))).head?.or (next.map r) =
        ((flatten xs).head?.or next).map r := by
      rw [flatten_rename, List.head?_map, Option.map_or]
    have hafter := h.after p x.text ((flatten xs).head?.or next)
    rw [List.map_cons, place, place, List.map_cons, hhead, ← ih, ← hafter]
    rfl

end Lexeme

open Lexeme (place lexemes) in
/-- A source under other marks has the tokens of the source it is renamed from, renamed and
at the same positions, and lexical errors of the same codes at the same positions. -/
theorem TokenStream.ofText_rename {r : Char → Char} {m n : Marks} (source : String)
    (h : Renames r m n) :
    (ofText n (source.map r)).tokens = (ofText m source).tokens.map (Token.rename r) ∧
      (ofText n (source.map r)).errors.map Diagnostic.summary =
        (ofText m source).errors.map Diagnostic.summary := by
  have hlexemes : lexemes n (source.map r).toList =
      (lexemes m source.toList).map (Lexeme.rename r) := by
    rw [String.toList_map]
    exact ((Lexeme.scan_lexemes m source.toList).rename h).eq
  have hplaced := Lexeme.place_rename h .start none (lexemes m source.toList)
  have hend := h.after .start source.toList none
  rw [Option.map_none] at hplaced hend
  constructor
  · rw [ofText_tokens, ofText_tokens, hlexemes, hplaced, String.toList_map, hend, List.map_append,
      List.filterMap_map, List.map_filterMap, List.map_singleton, Token.rename_finishAt]
    congr 1
    exact List.filterMap_congr fun x _ => Lexeme.token?_rename h x.lexeme x.position
  · rw [ofText_errors, ofText_errors, hlexemes, hplaced, List.filterMap_map, List.map_filterMap,
      List.map_filterMap]
    exact List.filterMap_congr fun x _ => Lexeme.report?_rename r x

/-- A tilde for the caret and a semicolon for the comma, and the other way round. -/
def swapMarks : Char → Char
  | '^' => '~'
  | '~' => '^'
  | ',' => ';'
  | ';' => ','
  | c => c

theorem swapMarks_swapMarks (c : Char) : swapMarks (swapMarks c) = c := by
  fun_cases swapMarks c with
  | case1 | case2 | case3 | case4 => rfl
  | case5 => exact swapMarks.eq_5 c ‹_› ‹_› ‹_› ‹_›

/-- Four printable characters of one byte change their places. -/
theorem renames_swapMarks : Renames swapMarks .standard ⟨'~', ';'⟩ where
  injective := Function.LeftInverse.injective swapMarks_swapMarks
  marker := rfl
  delimiter := rfl
  code c hc := by
    unfold swapMarks
    split
    case h_5 => rfl
    all_goals cases hc
  fixed := by
    simp only [List.forall_mem_cons]
    exact ⟨rfl, rfl, rfl, rfl, List.forall_mem_nil _⟩
  blank c := by
    unfold swapMarks
    split <;> rfl
  size c := by
    unfold swapMarks
    split <;> rfl

/-- A text with the usual marks, and with a tilde and a semicolon. The old delimiter is then a
character of a parameter, and the old marker is a stray one. -/
theorem TokenStream.ofText_rename_tilde :
    let source := "~\n^FO1,2;3^FDa^!"
    let renamed := "^\n~FO1;2,3~FDa~!"
    Renames swapMarks .standard ⟨'~', ';'⟩ ∧ source.map swapMarks = renamed ∧
      (ofText ⟨'~', ';'⟩ renamed).tokens =
        (ofText .standard source).tokens.map (Token.rename swapMarks) ∧
      (ofText ⟨'~', ';'⟩ renamed).errors.map Diagnostic.summary =
        (ofText .standard source).errors.map Diagnostic.summary := by
  intro source renamed
  have hrenamed : source.map swapMarks = renamed := by
    rw [← String.toList_inj, String.toList_map]
    decide
  have hsame := ofText_rename source renames_swapMarks
  rw [hrenamed] at hsame
  exact ⟨renames_swapMarks, hrenamed, hsame⟩

end Zpl
