import Mathlib.Data.List.Basic
import Zpl.Proofs.Cut
import Zpl.Proofs.LabelSize
import Zpl.Proofs.LexicalGrammar
import Zpl.Proofs.Mapped
import Zpl.Proofs.Reading

/-! Line endings. A text that ends its lines with line feeds can be respelled to end them
with carriage returns, or with both. Respelling goes through scanning lexeme by lexeme
(`Scan.respell`): every token keeps its line and column, and only the texts of comments and
line breaks change. So a label says the same with any line ending (`parse_respell`). -/

namespace Zpl

/-- The ways to end a line other than by a line feed alone. -/
inductive LineEnding where
  | carriageReturn
  | pair
deriving DecidableEq

namespace LineEnding

def text : LineEnding → List Char
  | carriageReturn => ['\r']
  | pair => ['\r', '\n']

/-- The text with the ending in place of each line feed. -/
def respell (e : LineEnding) (cs : List Char) : List Char :=
  cs.flatMap fun c => if c = '\n' then e.text else [c]

def respellText (e : LineEnding) (s : String) : String :=
  .ofList (e.respell s.toList)

/-- The bytes by which the ending is longer than a line feed. -/
def extra : LineEnding → Nat
  | carriageReturn => 0
  | pair => 1

/-- Where a position of a text lies in the respelled text: on the same line and column. -/
def moved (e : LineEnding) (p : Position) : Position :=
  ⟨p.line, p.column, p.offset + e.extra * (p.line - 1)⟩

/-- A token of a text in the respelled text. The value of a comment is respelled too. -/
def token (e : LineEnding) (t : Token) : Token where
  kind := t.kind
  value := if t.kind = .comment then e.respellText t.value else t.value
  position := e.moved t.position
  raw := e.respellText t.raw

end LineEnding

/-- What a command says and the line and column where it stands. -/
def Command.said (c : Command) : String × CommandKind × List String × Nat × Nat :=
  (c.code, c.kind, c.parameters, c.position.line, c.position.column)

/-- The code of a diagnostic, its severity, and the line and column that it tells. -/
def Diagnostic.told (d : Diagnostic) : String × Severity × Nat × Nat :=
  (d.code, d.severity, d.position.line, d.position.column)

/-- Two documents say the same, if byte offsets, raw texts and wordings do not count. -/
structure Document.SaysAs (a b : Document) : Prop where
  commands : a.commands.map Command.said = b.commands.map Command.said
  errors : a.metadata.errors.map Diagnostic.told = b.metadata.errors.map Diagnostic.told
  warnings : a.metadata.warnings.map Diagnostic.told = b.metadata.warnings.map Diagnostic.told
  labelWidth : a.metadata.labelWidth = b.metadata.labelWidth
  labelLength : a.metadata.labelLength = b.metadata.labelLength

/-! ## Respelled texts -/

namespace LineEnding

variable (e : LineEnding)

/-- The first character of a respelled text. -/
def first (c : Char) : Char :=
  if c = '\n' then '\r' else c

@[simp] theorem respell_nil : e.respell [] = [] := rfl

@[simp] theorem respell_append (as bs : List Char) :
    e.respell (as ++ bs) = e.respell as ++ e.respell bs :=
  List.flatMap_append

theorem respell_cons {c : Char} (hc : c ≠ '\n') (cs : List Char) :
    e.respell (c :: cs) = c :: e.respell cs := by
  simp [respell, hc]

theorem respell_break (cs : List Char) : e.respell ('\n' :: cs) = e.text ++ e.respell cs := rfl

theorem respell_eq_self {cs : List Char} (h : '\n' ∉ cs) : e.respell cs = cs := by
  induction cs with
  | nil => rfl
  | cons c cs ih =>
    obtain ⟨hc, hcs⟩ := not_or.mp (mt List.mem_cons.mpr h)
    rw [respell_cons e (Ne.symm hc), ih hcs]

theorem head?_respell (cs : List Char) : (e.respell cs).head? = cs.head?.map first := by
  cases cs with
  | nil => rfl
  | cons c cs =>
    by_cases hc : c = '\n'
    · subst hc
      cases e <;> rfl
    · rw [respell_cons e hc]
      simp [first, hc]

/-- What holds of a carriage return and of the first character of a text holds of the first
character of the respelled one. -/
theorem forall_head?_respell {P : Char → Prop} (hreturn : P '\r') {cs : List Char}
    (h : ∀ c, cs.head? = some c → P c) : ∀ c, (e.respell cs).head? = some c → P c := by
  intro c hc
  rw [head?_respell] at hc
  obtain ⟨d, hd, rfl⟩ := Option.map_eq_some_iff.mp hc
  unfold first
  split
  · exact hreturn
  · exact h d hd

/-- No respelled text starts with the second half of a pair. -/
theorem head?_respell_ne (cs : List Char) : (e.respell cs).head? ≠ some '\n' := by
  rw [head?_respell]
  intro h
  obtain ⟨c, -, hc⟩ := Option.map_eq_some_iff.mp h
  unfold first at hc
  split at hc
  · cases hc
  · next hne => exact hne hc

/-! ## Positions -/

theorem moved_start : e.moved .start = .start := by
  simp [moved, Position.start]

theorem step_break (p : Position) (next : Option Char) :
    p.step '\n' next = ⟨p.line + 1, 1, p.offset + 1⟩ := rfl

theorem after_text (p : Position) {next : Option Char} (hnext : next ≠ some '\n') :
    p.after e.text next = ⟨p.line + 1, 1, p.offset + (1 + e.extra)⟩ := by
  cases e with
  | carriageReturn =>
    have hends : Position.endsLine '\r' next := by simp [Position.endsLine, hnext]
    show p.step '\r' next = _
    rw [Position.step, if_pos hends]
    rfl
  | pair => rfl

/-- Respelling one character moves what stands behind it along. -/
theorem after_respell_singleton (p : Position) {c : Char} (next : Option Char) (hc : c ≠ '\r')
    (hp : 1 ≤ p.line) :
    (e.moved p).after (e.respell [c]) (next.map first) = e.moved (p.step c next) := by
  by_cases hbreak : c = '\n'
  · subst hbreak
    have hnext : next.map first ≠ some '\n' := by
      have := e.head?_respell_ne next.toList
      rwa [head?_respell, Option.head?_toList] at this
    rw [respell_break, respell_nil, List.append_nil, after_text e _ hnext, step_break]
    obtain ⟨n, hn⟩ := Nat.exists_eq_add_of_le hp
    simp only [moved, hn, Position.mk.injEq, true_and]
    rw [Nat.add_sub_cancel_left, Nat.add_sub_cancel, Nat.mul_add]
    omega
  · have hends : ∀ n, Position.endsLine c n = false := by
      intro n
      simp [Position.endsLine, hbreak, hc]
    rw [respell_eq_self e (by simpa using Ne.symm hbreak)]
    show (e.moved p).step c (next.map first) = _
    simp only [Position.step, hends, moved, Position.mk.injEq, Bool.false_eq_true, if_false, true_and]
    omega

theorem one_le_line {p : Position} (hp : 1 ≤ p.line) (c : Char) (next : Option Char) :
    1 ≤ (p.step c next).line := by
  unfold Position.step
  split
  · exact Nat.le_add_left 1 p.line
  · exact hp

/-- Respelling a text moves what stands behind it along. -/
theorem after_respell {p : Position} {cs : List Char} (next : Option Char) (hcs : '\r' ∉ cs)
    (hp : 1 ≤ p.line) :
    (e.moved p).after (e.respell cs) (next.map first) = e.moved (p.after cs next) ∧
      1 ≤ (p.after cs next).line := by
  induction cs generalizing p with
  | nil => exact ⟨rfl, hp⟩
  | cons c cs ih =>
    obtain ⟨hc, hrest⟩ := not_or.mp (mt List.mem_cons.mpr hcs)
    have hhead : (e.respell cs).head?.or (next.map first) = (cs.head?.or next).map first := by
      rw [head?_respell]
      cases cs <;> rfl
    rw [← List.singleton_append, respell_append, Position.after_append, hhead,
      after_respell_singleton e p _ (Ne.symm hc) hp]
    exact ih hrest (one_le_line hp c _)

end LineEnding

/-! ## Scanning -/

namespace Lexeme

variable {m : Marks} (e : LineEnding)

def respell (x : Lexeme) : Lexeme :=
  { x with text := e.respell x.text }

theorem flatten_respell (xs : List Lexeme) :
    flatten (xs.map (respell e)) = e.respell (flatten xs) := by
  induction xs with
  | nil => rfl
  | cons x xs ih =>
    rw [List.map_cons, flatten_cons, flatten_cons, e.respell_append, ih]
    rfl

theorem codeLength_respell (cs : List Char) : codeLength (e.respell cs) = codeLength cs := by
  cases cs with
  | nil => rfl
  | cons c cs =>
    by_cases hc : c = '\n'
    · subst hc
      have hzero : ∀ d ds, isCodeChar d = false → codeLength (d :: ds) = 0 := by
        intro d ds hd
        rw [codeLength_cons, hd]
        rfl
      rw [hzero '\n' cs rfl]
      cases e with
      | carriageReturn => exact hzero '\r' (LineEnding.carriageReturn.respell cs) rfl
      | pair => exact hzero '\r' ('\n' :: LineEnding.pair.respell cs) rfl
    · have hjoins : joins c (cs.head?.map LineEnding.first) = joins c cs.head? := by
        cases cs.head? with
        | none => rfl
        | some d =>
          by_cases hd : d = '\n'
          · subst hd
            rfl
          · simp [LineEnding.first, hd]
      rw [e.respell_cons hc, codeLength_cons, codeLength_cons, e.head?_respell, hjoins]

theorem splitAtClose?_respell (cs : List Char) :
    splitAtClose? (e.respell cs) =
      (splitAtClose? cs).map fun (body, rest) => (e.respell body, e.respell rest) := by
  fun_induction splitAtClose? cs with
  | case1 rest =>
    rw [e.respell_cons (by decide), e.respell_cons (by decide)]
    rfl
  | case2 c cs hopen ih =>
    have hskip : ∀ d ds, d ≠ '*' → splitAtClose? (d :: ds) =
        (splitAtClose? ds).map fun (body, rest) => (d :: body, rest) :=
      fun d ds hd => splitAtClose?.eq_2 d ds fun _ hstar _ => hd hstar
    by_cases hc : c = '\n'
    · subst hc
      rw [e.respell_break, Option.map_map]
      cases e with
      | carriageReturn =>
        show splitAtClose? ('\r' :: LineEnding.carriageReturn.respell cs) = _
        rw [hskip _ _ (by decide), ih, Option.map_map]
        rfl
      | pair =>
        show splitAtClose? ('\r' :: '\n' :: LineEnding.pair.respell cs) = _
        rw [hskip _ _ (by decide), hskip _ _ (by decide), ih, Option.map_map, Option.map_map]
        rfl
    · have hopened : ∀ rest, c = '*' → e.respell cs = '/' :: rest → False := by
        intro rest hstar hrest
        have hslash : ∀ d, cs.head? = some d → d ≠ '/' := by
          rintro d hd rfl
          obtain ⟨more, hmore⟩ := List.head?_eq_some_iff.mp hd
          exact hopen more hstar hmore
        exact e.forall_head?_respell (by decide) hslash '/' (congrArg List.head? hrest) rfl
      rw [e.respell_cons hc, splitAtClose?.eq_2 _ _ hopened, ih, Option.map_map, Option.map_map]
      refine congrArg (Option.map · _) (funext fun parts => ?_)
      obtain ⟨body, rest⟩ := parts
      simp [e.respell_cons hc]
  | case3 => rfl

/-- A slash starts a comment by the character behind it, which is the same in a respelled
text. -/
theorem trivia?_respell_none {c : Char} {cs : List Char} (h : trivia? (c :: cs) = none) :
    trivia? (c :: e.respell cs) = none := by
  obtain ⟨hfeed, hreturn, hslash⟩ := trivia?_eq_none.mp h
  refine trivia?_eq_none.mpr ⟨hfeed, hreturn, fun hc => ?_⟩
  have hfirst : ∀ d, '\r' ≠ d → cs.head? ≠ some d → (e.respell cs).head? ≠ some d :=
    fun d hd hne hhead =>
      e.forall_head?_respell (P := (· ≠ d)) hd (fun u hu heq => hne (heq ▸ hu)) d hhead rfl
  exact ⟨hfirst '/' (by decide) (hslash hc).1, hfirst '*' (by decide) (hslash hc).2⟩

/-- Comments and line breaks of a respelled text are those of the text. -/
theorem trivia?_respell {cs rest : List Char} {x : Lexeme} (h : trivia? cs = some (x, rest))
    (hcs : cs.head? ≠ some '\r') :
    trivia? (e.respell cs) = some (x.respell e, e.respell rest) := by
  refine trivia?_iff.mpr ?_
  cases trivia?_iff.mp h with
  | pair => exact absurd rfl hcs
  | carriageReturn => exact absurd rfl hcs
  | lineFeed =>
    cases e with
    | carriageReturn => exact .carriageReturn (LineEnding.carriageReturn.head?_respell_ne rest)
    | pair => exact .pair
  | @line body _ hbody hrest =>
    have hsame : e.respell body = body := e.respell_eq_self fun hmem => by cases hbody _ hmem
    have hbreak : ∀ c, (e.respell rest).head? = some c → Text.isLineBreak c :=
      e.forall_head?_respell (P := (Text.isLineBreak ·)) rfl hrest
    have hline := Trivia.line hbody hbreak
    simpa [respell, e.respell_cons, hsame] using hline
  | @block cs body _ hclose =>
    have hsplit : splitAtClose? (e.respell cs) = some (e.respell body, e.respell rest) := by
      rw [splitAtClose?_respell, hclose, Option.map_some]
    simpa [respell, e.respell_cons] using Trivia.block hsplit
  | @unclosed cs hclose =>
    have hsplit : splitAtClose? (e.respell cs) = none := by
      rw [splitAtClose?_respell, hclose, Option.map_none]
    simpa [respell, e.respell_cons] using Trivia.unclosed hsplit

theorem respell_eq_self {x : Lexeme} (h : '\n' ∉ x.text) : x.respell e = x := by
  rw [respell, e.respell_eq_self h]

/-- Neither a code nor its operands break the line. -/
theorem IsCommand.noBreak {code line rest : List Char} (h : IsCommand m code line rest) :
    '\n' ∉ code ∧ '\n' ∉ line := by
  constructor
  · intro hmem
    have := h.code.isCode.chars '\n' hmem
    simp [isCodeChar] at this
  · intro hmem
    have := h.line '\n' hmem
    simp [isOperandChar, Text.isLineBreak] at this

theorem operands_noBreak {code line : List Char} (h : '\n' ∉ line) :
    ∀ x ∈ operands m code line, '\n' ∉ x.text := by
  intro x hx hmem
  have hflat : '\n' ∈ flatten (operands m code line) := List.mem_flatMap.mpr ⟨x, hx, hmem⟩
  rw [flatten_operands] at hflat
  exact h hflat

theorem Plain.ne_break {c : Char} {cs : List Char} (h : Plain m c cs) : c ≠ '\n' :=
  (trivia?_eq_none.mp h.not_trivia).1

theorem marker_ne {c : Char} (hm : Text.isLineBreak m.marker = false) (hc : Text.isLineBreak c) :
    m.marker ≠ c := by
  rintro rfl
  rw [hm] at hc
  cases hc

/-- Only line breaks and comments have line feeds in them. -/
theorem Scan.noBreak {cs : List Char} {xs : List Lexeme} (hm : m.marker ≠ '\n')
    (h : Scan m cs xs) : ∀ x ∈ xs, isTrivia x.kind = false → '\n' ∉ x.text := by
  induction h with
  | nil => exact List.forall_mem_nil _
  | loneMarker _ _ ih =>
    exact List.forall_mem_cons.mpr ⟨fun _ => by simpa using Ne.symm hm, ih⟩
  | @command code line rest xs hc _ ih =>
    obtain ⟨hcode, hline⟩ := hc.noBreak
    refine List.forall_mem_cons.mpr ⟨fun _ => by simpa using Ne.symm hm,
      List.forall_mem_cons.mpr ⟨fun _ => hcode, fun x hx => ?_⟩⟩
    rcases List.mem_append.mp hx with hx | hx
    · exact fun _ => operands_noBreak hline x hx
    · exact ih x hx
  | trivia _ ht _ ih =>
    refine List.forall_mem_cons.mpr ⟨fun hk => ?_, ih⟩
    rw [trivia?_kind ht] at hk
    cases hk
  | blank hp _ _ ih | stray hp _ _ ih =>
    exact List.forall_mem_cons.mpr ⟨fun _ => by simpa using Ne.symm hp.ne_break, ih⟩

theorem IsCommand.respell {code line rest : List Char} (h : IsCommand m code line rest) :
    IsCommand m code line (e.respell rest) := by
  obtain ⟨hcode, hline⟩ := h.noBreak
  have hends : EndsOperands m (e.respell rest) :=
    e.forall_head?_respell (by simp [isOperandChar, Text.isLineBreak]) h.ends
  refine ⟨⟨h.code.nonempty, ?_⟩, h.line, hends⟩
  have hrespell : e.respell (code ++ (line ++ rest)) = code ++ (line ++ e.respell rest) := by
    rw [e.respell_append, e.respell_append, e.respell_eq_self hcode, e.respell_eq_self hline]
  rw [← hrespell, codeLength_respell]
  exact h.code.length

theorem Plain.respell {c : Char} {cs : List Char} (h : Plain m c cs) : Plain m c (e.respell cs) :=
  ⟨h.not_marker, trivia?_respell_none e h.not_trivia⟩

/-- No marker comes up where there was none. -/
theorem exists_cons_respell {c : Char} (hm : Text.isLineBreak m.marker = false)
    (hc : c ≠ m.marker) (cs : List Char) :
    ∃ d ds, e.respell (c :: cs) = d :: ds ∧ d ≠ m.marker := by
  by_cases hbreak : c = '\n'
  · subst hbreak
    have hne : '\r' ≠ m.marker := Ne.symm (marker_ne hm rfl)
    cases e with
    | carriageReturn => exact ⟨'\r', _, rfl, hne⟩
    | pair => exact ⟨'\r', _, rfl, hne⟩
  · exact ⟨c, _, e.respell_cons hbreak cs, hc⟩

/-- A respelled text is made of the respelled lexemes. -/
theorem Scan.respell {cs : List Char} {xs : List Lexeme} (hm : Text.isLineBreak m.marker = false)
    (h : Scan m cs xs) (hcs : '\r' ∉ cs) : Scan m (e.respell cs) (xs.map (Lexeme.respell e)) := by
  have hfeed : m.marker ≠ '\n' := marker_ne hm rfl
  have hsingle : ∀ {c} kind, c ≠ '\n' → Lexeme.respell e ⟨kind, [c]⟩ = ⟨kind, [c]⟩ :=
    fun kind hc => respell_eq_self e (by simpa using Ne.symm hc)
  induction h with
  | nil => exact .nil
  | @loneMarker cs xs hcode _ ih =>
    obtain ⟨-, hrest⟩ := not_or.mp (mt List.mem_cons.mpr hcs)
    rw [e.respell_cons hfeed, List.map_cons, hsingle _ hfeed]
    exact .loneMarker ((codeLength_respell e cs).trans hcode) (ih hrest)
  | @command code line rest xs hc _ ih =>
    obtain ⟨hcode, hline⟩ := hc.noBreak
    have hrest : '\r' ∉ rest := fun hmem => hcs (by simp [hmem])
    have hoperands : (operands m code line).map (Lexeme.respell e) = operands m code line := by
      refine (List.map_congr_left fun x hx => ?_).trans (List.map_id _)
      exact respell_eq_self e (operands_noBreak hline x hx)
    rw [e.respell_cons hfeed, e.respell_append, e.respell_append, e.respell_eq_self hcode,
      e.respell_eq_self hline, List.map_cons, List.map_cons, List.map_append, hsingle _ hfeed,
      hoperands, respell_eq_self e hcode]
    exact .command (hc.respell e) (ih hrest)
  | @trivia c cs x rest xs hc ht _ ih =>
    obtain ⟨hreturn, -⟩ := not_or.mp (mt List.mem_cons.mpr hcs)
    have hrest : '\r' ∉ rest := fun hmem => hcs (by rw [(trivia?_eq ht).1]; simp [hmem])
    have htrivia := trivia?_respell e ht (by simpa using Ne.symm hreturn)
    obtain ⟨d, ds, hd, hdne⟩ := exists_cons_respell e hm hc cs
    rw [hd] at htrivia ⊢
    exact .trivia hdne htrivia (ih hrest)
  | @blank c cs xs hp hb _ ih =>
    obtain ⟨-, hrest⟩ := not_or.mp (mt List.mem_cons.mpr hcs)
    rw [e.respell_cons hp.ne_break, List.map_cons, hsingle _ hp.ne_break]
    exact .blank (hp.respell e) hb (ih hrest)
  | @stray c cs xs hp hb _ ih =>
    obtain ⟨-, hrest⟩ := not_or.mp (mt List.mem_cons.mpr hcs)
    rw [e.respell_cons hp.ne_break, List.map_cons, hsingle _ hp.ne_break]
    exact .stray (hp.respell e) hb (ih hrest)

/-! ## Tokens -/

/-- Only comments mean something else when they are respelled. -/
theorem value_of_trivia {cs rest : List Char} {x : Lexeme} (h : trivia? cs = some (x, rest)) :
    (x.respell e).value =
      if tokenKind? x.kind = some .comment then e.respell x.value else x.value := by
  cases trivia?_iff.mp h with
  | pair => rfl
  | carriageReturn => rfl
  | lineFeed => rfl
  | line => simp [value, respell, tokenKind?, e.respell_cons]
  | block => simp [value, respell, tokenKind?, e.respell_cons]
  | unclosed => simp [value, respell, tokenKind?, e.respell_cons]

theorem Scan.value_respell {cs : List Char} {xs : List Lexeme} (hm : m.marker ≠ '\n')
    (h : Scan m cs xs) : ∀ x ∈ xs, (x.respell e).value =
      if tokenKind? x.kind = some .comment then e.respell x.value else x.value := by
  intro x hx
  by_cases htrivia : isTrivia x.kind
  · obtain ⟨front, back, rfl⟩ := List.append_of_mem hx
    have hblank : x.kind ≠ .blank := by
      intro hk
      rw [hk] at htrivia
      cases htrivia
    exact value_of_trivia e ((h.suffix (leads_of_isTrivia htrivia) hblank).trivia_head htrivia)
  · have hplain := h.noBreak hm x hx (by simpa using htrivia)
    have hkind : tokenKind? x.kind ≠ some .comment := by
      intro hcomment
      cases hk : x.kind <;> simp_all [tokenKind?, isTrivia]
    rw [respell_eq_self e hplain, if_neg hkind]

theorem token?_respell {x : Lexeme} (p : Position) (h : (x.respell e).value =
      if tokenKind? x.kind = some .comment then e.respell x.value else x.value) :
    (x.respell e).token? (e.moved p) = (x.token? p).map e.token := by
  have hkind : (x.respell e).kind = x.kind := rfl
  rw [token?, token?, hkind, h, Option.map_map]
  cases tokenKind? x.kind with
  | none => rfl
  | some kind =>
    by_cases hcomment : kind = .comment
    · subst hcomment
      simp [LineEnding.token, LineEnding.respellText, respell]
    · simp [LineEnding.token, LineEnding.respellText, respell, hcomment]

/-- What is reported of a lexeme, but for the wording. -/
theorem report?_respell {x : Lexeme} (hx : x.text ≠ []) (p : Position) (next : Option Char) :
    (Placed.report? ⟨x.respell e, e.moved p, next.map LineEnding.first⟩).map Diagnostic.summary =
      ((Placed.report? ⟨x, p, next⟩).map (Diagnostic.move e.moved)).map Diagnostic.summary := by
  obtain ⟨c, cs, hc⟩ := List.exists_cons_of_ne_nil hx
  obtain ⟨d, ds, hd⟩ : ∃ d ds, e.respell x.text = d :: ds := by
    have hhead := e.head?_respell x.text
    rw [hc] at hhead ⊢
    exact ⟨_, List.head?_eq_some_iff.mp hhead⟩
  have hkind : (x.respell e).kind = x.kind := rfl
  have htext : (x.respell e).text = d :: ds := hd
  simp only [Placed.report?, problem?, hkind, htext, hc]
  cases x.kind <;> rfl

theorem place_respell {p : Position} {xs : List Lexeme} (next : Option Char) (hp : 1 ≤ p.line)
    (hxs : '\r' ∉ flatten xs) :
    place (e.moved p) (next.map LineEnding.first) (xs.map (respell e)) =
      (place p next xs).map fun x =>
        ⟨x.lexeme.respell e, e.moved x.position, x.next.map LineEnding.first⟩ := by
  induction xs generalizing p with
  | nil => rfl
  | cons x xs ih =>
    rw [flatten_cons, List.mem_append, not_or] at hxs
    have hhead : (flatten (xs.map (respell e))).head?.or (next.map LineEnding.first) =
        ((flatten xs).head?.or next).map LineEnding.first := by
      rw [flatten_respell, e.head?_respell]
      cases (flatten xs).head? <;> rfl
    obtain ⟨hafter, hline⟩ := e.after_respell ((flatten xs).head?.or next) hxs.1 hp
    rw [List.map_cons, place, place, List.map_cons, hhead, ← ih hline hxs.2, ← hafter]
    rfl

end Lexeme

namespace TokenStream

open Lexeme (place flatten lexemes)

variable (e : LineEnding) {m : Marks} {source : String}

theorem lexemes_respell (hm : Text.isLineBreak m.marker = false) (hsource : '\r' ∉ source.toList) :
    lexemes m (e.respellText source).toList =
      (lexemes m source.toList).map (Lexeme.respell e) := by
  rw [LineEnding.respellText, String.toList_ofList]
  exact ((Lexeme.scan_lexemes m source.toList).respell e hm hsource).eq

theorem placed_respell (hm : Text.isLineBreak m.marker = false) (hsource : '\r' ∉ source.toList) :
    place .start none (lexemes m (e.respellText source).toList) =
      (place .start none (lexemes m source.toList)).map fun x =>
        ⟨x.lexeme.respell e, e.moved x.position, x.next.map LineEnding.first⟩ := by
  rw [lexemes_respell e hm hsource, ← Lexeme.place_respell e none (Nat.le_refl 1)
    (by rwa [Lexeme.flatten_lexemes]), e.moved_start]
  rfl

/-- The tokens of a respelled source are those of the source, on the same lines and columns. -/
theorem ofText_tokens_respell (hm : Text.isLineBreak m.marker = false)
    (hsource : '\r' ∉ source.toList) :
    (ofText m (e.respellText source)).tokens = (ofText m source).tokens.map e.token := by
  have hend : Position.start.after (e.respellText source).toList none =
      e.moved (Position.start.after source.toList none) := by
    have hafter := (e.after_respell (p := .start) none hsource (Nat.le_refl 1)).1
    rw [LineEnding.respellText, String.toList_ofList]
    rwa [e.moved_start] at hafter
  rw [ofText_tokens, ofText_tokens, placed_respell e hm hsource, hend, List.map_append,
    List.filterMap_map, List.map_filterMap]
  congr 1
  refine List.filterMap_congr fun x hx => ?_
  obtain ⟨front, back, hxs, -, -⟩ := Lexeme.mem_place hx
  exact Lexeme.token?_respell e x.position
    ((Lexeme.scan_lexemes m source.toList).value_respell e (Lexeme.marker_ne hm rfl) x.lexeme
      (by rw [hxs]; simp))

theorem ofText_errors_respell (hm : Text.isLineBreak m.marker = false)
    (hsource : '\r' ∉ source.toList) :
    (ofText m (e.respellText source)).errors.map Diagnostic.summary =
      ((ofText m source).errors.map (Diagnostic.move e.moved)).map Diagnostic.summary := by
  rw [ofText_errors, ofText_errors, placed_respell e hm hsource, List.filterMap_map,
    List.map_filterMap, List.map_filterMap, List.map_filterMap]
  refine List.filterMap_congr fun x hx => ?_
  obtain ⟨front, back, hxs, -, -⟩ := Lexeme.mem_place hx
  exact Lexeme.report?_respell e
    ((Lexeme.scan_lexemes m source.toList).nonempty x.lexeme (by rw [hxs]; simp)) x.position x.next

end TokenStream

/-! ## Documents -/

def TokenMap.respell (e : LineEnding) : TokenMap where
  toFun := e.token
  kind _ := rfl
  code t h := by
    rw [LineEnding.token, h]
    rfl

theorem TokenMap.keepsOperands_respell (e : LineEnding) : (TokenMap.respell e).KeepsOperands := by
  intro t ht
  have hcomment : t.kind ≠ .comment := by
    intro hk
    rw [hk] at ht
    cases ht
  exact if_neg hcomment

/-- The line and column of a diagnostic are read off its summary. -/
theorem Diagnostic.told_of_summary (e : LineEnding) {ds ds' : List Diagnostic}
    (h : ds'.map summary = (ds.map (move e.moved)).map summary) : ds'.map told = ds.map told := by
  have htold : told = (fun d : String × Severity × Position =>
      (d.1, d.2.1, d.2.2.line, d.2.2.column)) ∘ summary := rfl
  rw [htold, ← List.map_map, h, List.map_map, List.map_map]
  rfl

namespace Share

variable (e : LineEnding)

/-- The share of a respelled source says what the share of the source says. -/
theorem said_respell (source source' : List Char) (s : Share) :
    ((s.map (.respell e)).command source').said = (s.command source).said := by
  rw [command_map (TokenMap.keepsOperands_respell e) source source' s]
  rfl

theorem told_respell (s : Share) :
    (s.map (.respell e)).errors.map Diagnostic.told = s.errors.map Diagnostic.told ∧
      (s.map (.respell e)).warnings.map Diagnostic.told = s.warnings.map Diagnostic.told := by
  have hmove : ∀ ds : List Diagnostic, (∀ d ∈ ds, d.position = s.place.position) →
      ds.map (Diagnostic.move fun _ => e.moved s.head.marker.position) =
        ds.map (Diagnostic.move e.moved) := by
    intro ds hds
    refine List.map_congr_left fun d hd => ?_
    rw [Diagnostic.move, Diagnostic.move, hds d hd]
    rfl
  have herrors := s.errors_map (.respell e)
  have hwarnings := s.warnings_map (.respell e)
  have hplace : ((TokenMap.respell e).toFun s.head.marker).position =
      e.moved s.head.marker.position := rfl
  rw [hplace, hmove _ fun d hd => errors_position hd] at herrors
  rw [hplace, hmove _ fun d hd => warnings_position hd] at hwarnings
  exact ⟨Diagnostic.told_of_summary e (by rw [herrors]), Diagnostic.told_of_summary e hwarnings⟩

end Share

/-- The size of a label depends on what its commands say. -/
theorem labelSize_said {cs cs' : List Command} (h : cs'.map Command.said = cs.map Command.said)
    (padding : Int32) :
    labelWidth? cs' padding = labelWidth? cs padding ∧ labelLength? cs' = labelLength? cs := by
  have hkind : ∀ ds : List Command, ds.map Command.kind = (ds.map Command.said).map (·.2.1) := by
    intro ds
    rw [List.map_map]
    rfl
  exact labelSize_of_kinds (by rw [hkind, hkind, h]) padding

/-- The ending of lines makes no difference: tokens and commands stand on the same lines
and columns and say the same, with the same errors and warnings. -/
theorem parse_respell (e : LineEnding) (m : Marks) (padding : Int32) (source : String)
    (hm : Text.isLineBreak m.marker = false) (hsource : '\r' ∉ source.toList) :
    (TokenStream.ofText m (e.respellText source)).tokens =
        (TokenStream.ofText m source).tokens.map e.token ∧
      ((Parser.mk .builtin m padding).parse (e.respellText source)).SaysAs
        ((Parser.mk .builtin m padding).parse source) := by
  have hstream := TokenStream.ofText_tokens_respell e hm hsource
  have hlexical := TokenStream.ofText_errors_respell e hm hsource
  obtain ⟨ps, p, htokens⟩ := TokenStream.ofText_phrases m source
  have hrespelled : (TokenStream.ofText m (e.respellText source)).tokens =
      (ps.map (Phrase.map (.respell e))).flatMap Phrase.tokens ++ [.finishAt (e.moved p)] := by
    rw [hstream, htokens, List.map_append, Phrase.tokens_map]
    rfl
  have hcommands :
      ((shares (ps.map (Phrase.map (.respell e)))).map
        (Share.command (e.respellText source).toList)).map Command.said =
      ((shares ps).map (Share.command source.toList)).map Command.said := by
    rw [shares_map, List.map_map, List.map_map, List.map_map]
    exact List.map_congr_left fun s _ => s.said_respell e _ _
  have herrors : ((shares (ps.map (Phrase.map (.respell e)))).flatMap Share.errors).map
      Diagnostic.told = ((shares ps).flatMap Share.errors).map Diagnostic.told := by
    rw [shares_map]
    simp only [List.flatMap_map, List.map_flatMap, Share.told_respell]
  have hwarnings : ((shares (ps.map (Phrase.map (.respell e)))).flatMap Share.warnings).map
      Diagnostic.told = ((shares ps).flatMap Share.warnings).map Diagnostic.told := by
    rw [shares_map]
    simp only [List.flatMap_map, List.map_flatMap, Share.told_respell]
  have hsize := labelSize_said hcommands padding
  refine ⟨hstream, ?_⟩
  rw [Parser.parse_shares padding htokens, Parser.parse_shares padding hrespelled]
  refine ⟨hcommands, ?_, hwarnings, hsize.1, hsize.2⟩
  simp only [List.map_append, Diagnostic.told_of_summary e hlexical, herrors]

/-- A comment over two lines, and a separator on the line behind the data of a barcode. -/
theorem parse_respell_barcode :
    let source := "^BC,40\n^FD12 \n/*a\nb*/^FS\n^QQ"
    let respelled := "^BC,40\r\n^FD12 \r\n/*a\r\nb*/^FS\r\n^QQ"
    LineEnding.pair.respellText source = respelled ∧
      Text.isLineBreak Marks.standard.marker = false ∧ '\r' ∉ source.toList ∧
      (TokenStream.ofText .standard respelled).tokens =
        (TokenStream.ofText .standard source).tokens.map LineEnding.pair.token ∧
      ((Parser.mk .builtin .standard 100).parse respelled).SaysAs
        ((Parser.mk .builtin .standard 100).parse source) := by
  intro source respelled
  have hrespelled : LineEnding.pair.respellText source = respelled := by decide +kernel
  have hsource : '\r' ∉ source.toList := by decide +kernel
  have hsame := parse_respell .pair .standard 100 source rfl hsource
  rw [hrespelled] at hsame
  exact ⟨hrespelled, rfl, hsource, hsame⟩

end Zpl
