import Zpl.Lexeme
import Zpl.Proofs.Run

/-! The lexical grammar as a judgment. `Scan m cs xs` says that the text `cs` is
made of the lexemes `xs`, one stretch of text at a time, with the text behind a
stretch in view where it decides what the stretch is. The judgment is what
`lexemes` computes (`scan_lexemes`, `Scan.eq`); all that is proved of lexemes goes
by induction on it. -/

namespace Zpl.Lexeme

variable {m : Marks}

/-- No operand of a command can start here. -/
def EndsOperands (m : Marks) (cs : List Char) : Prop :=
  ∀ c, cs.head? = some c → isOperandChar m c = false

/-- The code of a command in front of the text `tail`. -/
structure CodeBefore (code tail : List Char) : Prop where
  nonempty : code ≠ []
  length : codeLength (code ++ tail) = code.length

/-- The three parts of the text behind a marker: a code, the line of operands, and
what stands behind the command. -/
structure IsCommand (m : Marks) (code line rest : List Char) : Prop where
  code : CodeBefore code (line ++ rest)
  line : ∀ c ∈ line, isOperandChar m c
  ends : EndsOperands m rest

/-- The text `cs` begins with the comment or line break `x`, and `rest` stands behind it. -/
inductive Trivia : List Char → Lexeme → List Char → Prop where
  | pair {rest} : Trivia ('\r' :: '\n' :: rest) ⟨.lineBreak, ['\r', '\n']⟩ rest
  | carriageReturn {rest} : rest.head? ≠ some '\n' →
      Trivia ('\r' :: rest) ⟨.lineBreak, ['\r']⟩ rest
  | lineFeed {rest} : Trivia ('\n' :: rest) ⟨.lineBreak, ['\n']⟩ rest
  | line {body rest} : (∀ c ∈ body, Text.isLineBreak c = false) →
      (∀ c, rest.head? = some c → Text.isLineBreak c) →
      Trivia ('/' :: '/' :: (body ++ rest)) ⟨.lineComment, '/' :: '/' :: body⟩ rest
  | block {cs body rest} : splitAtClose? cs = some (body, rest) →
      Trivia ('/' :: '*' :: cs) ⟨.blockComment, '/' :: '*' :: body ++ ['*', '/']⟩ rest
  | unclosed {cs} : splitAtClose? cs = none →
      Trivia ('/' :: '*' :: cs) ⟨.openComment, '/' :: '*' :: cs⟩ []

/-- A character that makes a lexeme of its own, by no rule but the last one. -/
structure Plain (m : Marks) (c : Char) (cs : List Char) : Prop where
  not_marker : c ≠ m.marker
  not_trivia : trivia? (c :: cs) = none

inductive Scan (m : Marks) : List Char → List Lexeme → Prop where
  | nil : Scan m [] []
  | loneMarker {cs xs} : codeLength cs = 0 → Scan m cs xs →
      Scan m (m.marker :: cs) (⟨.loneMarker, [m.marker]⟩ :: xs)
  | command {code line rest xs} : IsCommand m code line rest → Scan m rest xs →
      Scan m (m.marker :: (code ++ (line ++ rest)))
        (⟨.marker, [m.marker]⟩ :: ⟨.code, code⟩ :: (operands m code line ++ xs))
  | trivia {c cs x rest xs} : c ≠ m.marker → trivia? (c :: cs) = some (x, rest) → Scan m rest xs →
      Scan m (c :: cs) (x :: xs)
  | blank {c cs xs} : Plain m c cs → Text.isBlank c → Scan m cs xs →
      Scan m (c :: cs) (⟨.blank, [c]⟩ :: xs)
  | stray {c cs xs} : Plain m c cs → Text.isBlank c = false → Scan m cs xs →
      Scan m (c :: cs) (⟨.stray, [c]⟩ :: xs)

/-- What is skipped may stand in front of any text that it is skipped in front of. -/
theorem Scan.skip {c : Char} {cs rest behind : List Char} {x : Lexeme} {xs : List Lexeme}
    (hc : c ≠ m.marker) (h : trivia? (c :: cs) = some (x, rest))
    (hskip : trivia? (x.text ++ behind) = some (x, behind)) (hbehind : Scan m behind xs) :
    Scan m (x.text ++ behind) (x :: xs) := by
  obtain ⟨htext, hne⟩ := trivia?_eq h
  obtain ⟨d, ds, hd⟩ := List.exists_cons_of_ne_nil hne
  rw [hd, List.cons_append] at htext hskip ⊢
  obtain rfl : c = d := (List.cons.inj htext).1
  exact .trivia hc hskip hbehind

/-! ## Codes -/

/-- Whether the character behind the first character `c` of a code belongs to it. -/
def joins (c : Char) (next : Option Char) : Bool :=
  if c = 'A' then next == some '@' else next.any isCodeChar

theorem codeLength_cons (c : Char) (cs : List Char) :
    codeLength (c :: cs) = if isCodeChar c then if joins c cs.head? then 2 else 1 else 0 := by
  have hA : isCodeChar 'A' = true := by decide
  by_cases hc : c = 'A'
  · subst hc
    cases cs with
    | nil => simp [codeLength, joins, hA]
    | cons d ds =>
      by_cases hd : d = '@'
      · subst hd; simp [codeLength, joins, hA]
      · simp [codeLength, joins, hA, hd]
  · cases cs with
    | nil => simp [codeLength, joins, hc]
    | cons d ds => simp [codeLength, joins, hc]

theorem codeLength_le (cs : List Char) : codeLength cs ≤ cs.length := by
  match cs with
  | [] => simp [codeLength]
  | [c] =>
    rw [codeLength_cons]
    by_cases hc : isCodeChar c <;> simp [hc, joins]
  | c :: d :: ds =>
    rw [codeLength_cons]
    simp only [List.length_cons]
    split
    · split <;> omega
    · omega

/-- A code stays a code when the text behind it is cut off, or changed behind its
first character, or starts with a character of no code. -/
theorem CodeBefore.congr {code tail tail' : List Char} (h : CodeBefore code tail)
    (ht : ∀ c, tail'.head? = some c → tail.head? = some c ∨ isCodeChar c = false) :
    CodeBefore code tail' := by
  refine ⟨h.nonempty, ?_⟩
  have hlen := h.length
  match code with
  | [] => exact absurd rfl h.nonempty
  | c :: d :: ds =>
    rw [List.cons_append, codeLength_cons] at hlen ⊢
    exact hlen
  | [c] =>
    rw [List.cons_append, codeLength_cons] at hlen ⊢
    rw [List.nil_append] at hlen ⊢
    have hc : isCodeChar c := by
      by_cases hc : isCodeChar c
      · exact hc
      · simp [hc] at hlen
    cases hn : tail'.head? with
    | none => simp [hc, joins]
    | some d =>
      rcases ht d hn with hd | hd
      · rwa [hd] at hlen
      · have hat : d ≠ '@' := by
          rintro rfl
          simp [isCodeChar] at hd
        simp [hc, joins, hd, hat]

/-! ## The judgment and the function -/

theorem scan_leading (m : Marks) (c : Char) (cs : List Char) {xs : List Lexeme}
    (h : Scan m (leading m c cs).2 xs) : Scan m (c :: cs) ((leading m c cs).1 ++ xs) := by
  unfold leading at h ⊢
  split at h
  · next hc =>
    subst hc
    simp only [if_true, command] at h ⊢
    split at h
    · next hcode =>
      have hzero : codeLength cs = 0 := by
        have hle := codeLength_le cs
        have := congrArg List.length (List.isEmpty_iff.mp hcode)
        rw [List.length_take, List.length_nil] at this
        omega
      rw [if_pos hcode]
      exact .loneMarker hzero h
    · next hcode =>
      rw [if_neg hcode]
      have hrest := List.takeWhile_append_dropWhile
        (p := isOperandChar m) (l := cs.drop (codeLength cs))
      have hcs := List.take_append_drop (codeLength cs) cs
      have hlen := List.length_take_of_le (codeLength_le cs)
      have hcommand : IsCommand m (cs.take (codeLength cs)) _ _ :=
        ⟨⟨by simpa using hcode, by rw [hrest, hcs, hlen]⟩, List.all_eq_true.mp List.all_takeWhile,
          fun _ hc => head?_dropWhile hc⟩
      have hscan := Scan.command hcommand h
      rwa [hrest, hcs] at hscan
  · next hc =>
    rw [if_neg hc]
    cases ht : trivia? (c :: cs) with
    | some found =>
      rw [ht] at h
      exact .trivia hc ht h
    | none =>
      rw [ht] at h
      by_cases hb : Text.isBlank c
      · simpa [hb] using Scan.blank ⟨hc, ht⟩ hb h
      · simpa [hb] using Scan.stray ⟨hc, ht⟩ (by simpa using hb) h

theorem scan_lexemes (m : Marks) (cs : List Char) : Scan m cs (lexemes m cs) := by
  fun_induction lexemes m cs with
  | case1 => exact .nil
  | case2 c cs found ih => exact scan_leading m c cs ih

theorem Scan.eq {cs : List Char} {xs : List Lexeme} (h : Scan m cs xs) : lexemes m cs = xs := by
  induction h with
  | nil => exact lexemes_nil m
  | loneMarker hcode _ ih => simp [lexemes_cons, leading, Lexeme.command, hcode, ih]
  | @command code line rest xs hc _ ih =>
    have hne : code.isEmpty = false := by simpa using hc.code.nonempty
    have htake : (line ++ rest).takeWhile (isOperandChar m) = line :=
      takeWhile_run hc.line hc.ends
    have hdrop : (line ++ rest).dropWhile (isOperandChar m) = rest := dropWhile_run hc.line hc.ends
    simp [lexemes_cons, leading, Lexeme.command, hc.code.length, hne, htake, hdrop, ih]
  | trivia hc ht _ ih => simp [lexemes_cons, leading, hc, ht, ih]
  | blank hp hb _ ih => simp [lexemes_cons, leading, hp.not_marker, hp.not_trivia, hb, ih]
  | stray hp hb _ ih => simp [lexemes_cons, leading, hp.not_marker, hp.not_trivia, hb, ih]

theorem isOperandChar_iff {c : Char} :
    isOperandChar m c ↔ c ≠ m.marker ∧ Text.isLineBreak c = false := by
  simp [isOperandChar]

/-- What ends the operands does not go on with them. -/
theorem EndsOperands.absurd {w v : List Char} {c : Char} (h : EndsOperands m (w ++ c :: v))
    (hw : ∀ d ∈ w, isOperandChar m d) (hc : isOperandChar m c) : False := by
  cases w with
  | nil => simp [h c rfl] at hc
  | cons d w => simpa [h d rfl] using hw d List.mem_cons_self

/-- A character that no other rule takes could stand among operands. -/
theorem Plain.isOperandChar {c : Char} {cs : List Char} (h : Plain m c cs) :
    isOperandChar m c := by
  rw [isOperandChar_iff]
  refine ⟨h.not_marker, ?_⟩
  have ht := h.not_trivia
  rw [Bool.eq_false_iff]
  intro hc
  simp only [Text.isLineBreak, Bool.or_eq_true, beq_iff_eq] at hc
  rcases hc with rfl | rfl
  · simp [trivia?] at ht
  · cases cs with
    | nil => simp [trivia?] at ht
    | cons d cs =>
      by_cases hd : d = '\n'
      · subst hd; simp [trivia?] at ht
      · simp [trivia?, hd] at ht

/-! ## Parameter lists -/

/-- The pieces of a parameter list: separators one by one, and between them the
longest runs without a separator. -/
inductive Pieces (m : Marks) : List Char → List Lexeme → Prop where
  | nil : Pieces m [] []
  | separator {c cs xs} : separates m c → Pieces m cs xs →
      Pieces m (c :: cs) (⟨.separator, [c]⟩ :: xs)
  | parameter {word cs xs} : word ≠ [] → (∀ c ∈ word, separates m c = false) →
      (∀ c, cs.head? = some c → separates m c) → Pieces m cs xs →
      Pieces m (word ++ cs) (⟨.parameter, word⟩ :: xs)

theorem parameterList_word {word cs : List Char} (hne : word ≠ [])
    (hword : ∀ c ∈ word, separates m c = false)
    (hcs : ∀ c, cs.head? = some c → separates m c) :
    parameterList m (word ++ cs) = ⟨.parameter, word⟩ :: parameterList m cs := by
  induction word with
  | nil => exact absurd rfl hne
  | cons c word ih =>
    have hc : separates m c = false := hword c List.mem_cons_self
    cases word with
    | cons d word =>
      have hrec := ih (by simp) fun e he => hword e (List.mem_cons_of_mem _ he)
      rw [List.cons_append, parameterList, hrec]
      simp [hc]
    | nil =>
      cases cs with
      | nil => simp [parameterList, hc]
      | cons d cs =>
        have hd : separates m d := hcs d rfl
        simp [parameterList, hc, hd]

theorem Pieces.eq {line : List Char} {xs : List Lexeme} (h : Pieces m line xs) :
    parameterList m line = xs := by
  induction h with
  | nil => rfl
  | separator hc _ ih => simp [parameterList, hc, ih]
  | parameter hne hword hcs _ ih => rw [parameterList_word hne hword hcs, ih]

theorem pieces_parameterList (m : Marks) (line : List Char) :
    Pieces m line (parameterList m line) := by
  match line with
  | [] => exact .nil
  | c :: cs =>
    by_cases hc : separates m c
    · simpa [parameterList, hc] using Pieces.separator hc (pieces_parameterList m cs)
    · have hsplit := List.takeWhile_append_dropWhile (p := (!separates m ·)) (l := cs)
      have hword : ∀ d ∈ c :: cs.takeWhile (!separates m ·), separates m d = false := by
        intro d hd
        rcases List.mem_cons.mp hd with rfl | hd
        · simpa using hc
        · simpa using List.all_eq_true.mp List.all_takeWhile d hd
      have hrest : ∀ d, (cs.dropWhile (!separates m ·)).head? = some d → separates m d := by
        intro d hd
        simpa using head?_dropWhile hd
      have hle := (List.dropWhile_sublist (l := cs) (!separates m ·)).length_le
      have hpieces := Pieces.parameter (by simp) hword hrest
        (pieces_parameterList m (cs.dropWhile (!separates m ·)))
      rw [← parameterList_word (by simp) hword hrest, List.cons_append, hsplit] at hpieces
      exact hpieces
termination_by line.length

theorem takesContent_iff (code : List Char) :
    takesContent code ↔ String.ofList code = "FD" ∨ String.ofList code = "FV" := by
  have hFD : "FD" = String.ofList ['F', 'D'] := rfl
  have hFV : "FV" = String.ofList ['F', 'V'] := rfl
  simp only [takesContent, Bool.or_eq_true, beq_iff_eq, hFD, hFV, String.ofList_inj]

/-! ## What lexemes are made of -/

/-- The text of a lexeme has the form that its kind promises. -/
def Fits (m : Marks) (x : Lexeme) : Prop :=
  match x.kind with
  | .blank => ∃ c, x.text = [c] ∧ Text.isBlank c
  | .separator => ∃ c, x.text = [c] ∧ separates m c
  | .stray => ∃ c, x.text = [c] ∧ Text.isBlank c = false
  | .marker | .loneMarker => x.text = [m.marker]
  | _ => x.text ≠ []

theorem Fits.nonempty {x : Lexeme} (h : x.Fits m) : x.text ≠ [] := by
  unfold Fits at h
  split at h
  · obtain ⟨c, hc, _⟩ := h; simp [hc]
  · obtain ⟨c, hc, _⟩ := h; simp [hc]
  · obtain ⟨c, hc, _⟩ := h; simp [hc]
  · simp [h]
  · simp [h]
  · exact h

theorem Pieces.fits {line : List Char} {xs : List Lexeme} (h : Pieces m line xs) :
    ∀ x ∈ xs, (x.kind = .separator ∨ x.kind = .parameter) ∧ x.Fits m := by
  induction h with
  | nil => simp
  | @separator c _ _ hc _ ih =>
    exact List.forall_mem_cons.mpr ⟨⟨.inl rfl, ⟨c, rfl, hc⟩⟩, ih⟩
  | parameter hne _ _ _ ih => exact List.forall_mem_cons.mpr ⟨⟨.inr rfl, hne⟩, ih⟩

theorem fieldContent_fits (m : Marks) (line : List Char) :
    ∀ x ∈ fieldContent line, (x.kind = .blank ∨ x.kind = .content) ∧ x.Fits m := by
  have hblank : ∀ x ∈ each .blank (Text.endBlanks line),
      (x.kind = .blank ∨ x.kind = .content) ∧ x.Fits m := by
    intro x hx
    obtain ⟨c, hc, rfl⟩ := List.mem_map.mp hx
    exact ⟨.inl rfl, c, rfl, Text.endBlanks_blank hc⟩
  simp only [fieldContent]
  split
  · exact hblank
  · next hne => exact List.forall_mem_cons.mpr ⟨⟨.inr rfl, by simpa [Fits] using hne⟩, hblank⟩

theorem operands_fits (m : Marks) (code line : List Char) :
    ∀ x ∈ operands m code line, x.Fits m := by
  intro x hx
  unfold operands at hx
  split at hx
  · exact (fieldContent_fits m line x hx).2
  · exact ((pieces_parameterList m line).fits x hx).2

theorem operands_kind {code line : List Char} {x : Lexeme} (hx : x ∈ operands m code line) :
    if takesContent code then x.kind = .blank ∨ x.kind = .content
    else x.kind = .separator ∨ x.kind = .parameter := by
  unfold operands at hx
  split at hx
  · next hc => rw [if_pos hc]; exact (fieldContent_fits m line x hx).1
  · next hc => rw [if_neg hc]; exact ((pieces_parameterList m line).fits x hx).1

/-- Whether a kind is that of a comment or a line break. -/
def isTrivia : LexemeKind → Bool
  | .lineBreak | .lineComment | .blockComment | .openComment => true
  | _ => false

theorem trivia?_iff {cs rest : List Char} {x : Lexeme} :
    trivia? cs = some (x, rest) ↔ Trivia cs x rest := by
  constructor
  · intro h
    unfold trivia? at h
    split at h
    · obtain ⟨rfl, rfl⟩ := Prod.mk.inj (Option.some.inj h)
      exact .pair
    · next hpair =>
      obtain ⟨rfl, rfl⟩ := Prod.mk.inj (Option.some.inj h)
      refine .carriageReturn fun hhead => ?_
      obtain ⟨more, hmore⟩ := List.head?_eq_some_iff.mp hhead
      exact hpair more hmore
    · obtain ⟨rfl, rfl⟩ := Prod.mk.inj (Option.some.inj h)
      exact .lineFeed
    · next cs =>
      obtain ⟨rfl, rfl⟩ := Prod.mk.inj (Option.some.inj h)
      have hbody : ∀ c ∈ cs.takeWhile (!Text.isLineBreak ·), Text.isLineBreak c = false := by
        intro c hc
        simpa using List.all_eq_true.mp List.all_takeWhile c hc
      have hrest : ∀ c, (cs.dropWhile (!Text.isLineBreak ·)).head? = some c → Text.isLineBreak c := by
        intro c hc
        simpa using head?_dropWhile hc
      have hline := Trivia.line hbody hrest
      rwa [List.takeWhile_append_dropWhile] at hline
    · split at h
      · next hclose =>
        obtain ⟨rfl, rfl⟩ := Prod.mk.inj (Option.some.inj h)
        exact .block hclose
      · next hclose =>
        obtain ⟨rfl, rfl⟩ := Prod.mk.inj (Option.some.inj h)
        exact .unclosed hclose
    · cases h
  · intro h
    cases h with
    | pair => rfl
    | carriageReturn hrest =>
      cases rest with
      | nil => rfl
      | cons d rest =>
        have hd : d ≠ '\n' := fun heq => hrest (congrArg some heq)
        simp [trivia?, hd]
    | lineFeed => rfl
    | @line body _ hbody hrest =>
      have hrun : ∀ c ∈ body, (!Text.isLineBreak c) = true := by simpa using hbody
      have hstop : ∀ c, rest.head? = some c → (!Text.isLineBreak c) = false := by simpa using hrest
      rw [trivia?, takeWhile_run hrun hstop, dropWhile_run hrun hstop]
    | block hclose => rw [trivia?, hclose]
    | unclosed hclose => rw [trivia?, hclose]

theorem trivia?_kind {cs rest : List Char} {x : Lexeme} (h : trivia? cs = some (x, rest)) :
    isTrivia x.kind := by
  cases trivia?_iff.mp h <;> rfl

theorem fits_of_trivia {x : Lexeme} (h : isTrivia x.kind) (hne : x.text ≠ []) : x.Fits m := by
  unfold Fits
  split <;> simp_all [isTrivia]

theorem Scan.fits {cs : List Char} {xs : List Lexeme} (h : Scan m cs xs) :
    ∀ x ∈ xs, x.Fits m := by
  induction h with
  | nil => simp
  | loneMarker _ _ ih => exact List.forall_mem_cons.mpr ⟨rfl, ih⟩
  | @command code line rest xs hc _ ih =>
    refine List.forall_mem_cons.mpr ⟨rfl, List.forall_mem_cons.mpr ⟨hc.code.nonempty, ?_⟩⟩
    intro x hx
    rcases List.mem_append.mp hx with hx | hx
    · exact operands_fits m code line x hx
    · exact ih x hx
  | trivia _ ht _ ih =>
    exact List.forall_mem_cons.mpr ⟨fits_of_trivia (trivia?_kind ht) (trivia?_eq ht).2, ih⟩
  | @blank c _ _ _ hb _ ih => exact List.forall_mem_cons.mpr ⟨⟨c, rfl, hb⟩, ih⟩
  | @stray c _ _ _ hb _ ih => exact List.forall_mem_cons.mpr ⟨⟨c, rfl, hb⟩, ih⟩

theorem Scan.nonempty {cs : List Char} {xs : List Lexeme} (h : Scan m cs xs) :
    ∀ x ∈ xs, x.text ≠ [] :=
  fun x hx => (h.fits x hx).nonempty

theorem Scan.flatten_eq {cs : List Char} {xs : List Lexeme} (h : Scan m cs xs) :
    flatten xs = cs := by
  rw [← h.eq, flatten_lexemes]

/-! ## The place of a lexeme -/

/-- Whether a lexeme of this kind starts a stretch of text: all but the parts of a
command behind its marker. -/
def leads : LexemeKind → Bool
  | .code | .parameter | .content | .separator => false
  | _ => true

/-- What stands around the lexeme `x` of a text: it starts a stretch, or it is the
code of a command, or one of its operands. -/
inductive Around (m : Marks) (front : List Lexeme) (x : Lexeme) (back : List Lexeme) : Prop where
  | head {cs} : leads x.kind → Scan m cs (x :: back) → Around m front x back
  | code {pre line rest more} : x.kind = .code → IsCommand m x.text line rest → Scan m rest more →
      front = pre ++ [⟨.marker, [m.marker]⟩] → back = operands m x.text line ++ more →
      Around m front x back
  | operand {pre code line rest more before after} : IsCommand m code line rest →
      Scan m rest more → front = pre ++ ⟨.marker, [m.marker]⟩ :: ⟨.code, code⟩ :: before →
      operands m code line = before ++ x :: after → back = after ++ more → Around m front x back

theorem Around.cons {front back : List Lexeme} {x : Lexeme} (y : Lexeme)
    (h : Around m front x back) : Around m (y :: front) x back := by
  cases h with
  | head hk hs => exact .head hk hs
  | code hk hc hs hf hb =>
    rw [hf, ← List.cons_append]
    exact .code hk hc hs rfl hb
  | operand hc hs hf ho hb =>
    rw [hf, ← List.cons_append]
    exact .operand hc hs rfl ho hb

theorem Around.append {front back : List Lexeme} {x : Lexeme} (ys : List Lexeme)
    (h : Around m front x back) : Around m (ys ++ front) x back := by
  induction ys with
  | nil => exact h
  | cons y ys ih => exact ih.cons y

theorem split_append_cons {α : Type} {xs ys front back : List α} {x : α}
    (h : xs ++ ys = front ++ x :: back) :
    (∃ more, front = xs ++ more ∧ ys = more ++ x :: back) ∨
      ∃ after, xs = front ++ x :: after ∧ back = after ++ ys := by
  rcases List.append_eq_append_iff.mp h with hmore | ⟨after, hxs, hafter⟩
  · exact .inl hmore
  · cases after with
    | nil => exact .inl ⟨[], by simpa using hxs.symm, by simpa using hafter.symm⟩
    | cons y after =>
      obtain ⟨rfl, rfl⟩ := List.cons.inj hafter
      exact .inr ⟨after, hxs, rfl⟩

theorem leads_of_isTrivia {kind : LexemeKind} (h : isTrivia kind) : leads kind := by
  cases kind <;> simp_all [isTrivia, leads]

theorem Around.of_cons {cs : List Char} {y x : Lexeme} {ys front back : List Lexeme}
    (hk : leads y.kind) (hs : Scan m cs (y :: ys)) (hx : y :: ys = front ++ x :: back)
    (ih : ∀ {front}, ys = front ++ x :: back → Around m front x back) : Around m front x back := by
  cases front with
  | nil =>
    obtain ⟨rfl, rfl⟩ := List.cons.inj hx
    exact .head hk hs
  | cons z front =>
    obtain ⟨rfl, hys⟩ := List.cons.inj hx
    exact (ih hys).cons y

theorem Scan.around {cs : List Char} {xs : List Lexeme} (h : Scan m cs xs) {front back : List Lexeme}
    {x : Lexeme} (hx : xs = front ++ x :: back) : Around m front x back := by
  induction h generalizing front with
  | nil => simp at hx
  | loneMarker hcode hs ih => exact .of_cons rfl (.loneMarker hcode hs) hx ih
  | trivia hm ht hs ih => exact .of_cons (leads_of_isTrivia (trivia?_kind ht)) (.trivia hm ht hs) hx ih
  | blank hp hb hs ih => exact .of_cons rfl (.blank hp hb hs) hx ih
  | stray hp hb hs ih => exact .of_cons rfl (.stray hp hb hs) hx ih
  | @command code line rest xs hc hs ih =>
    match front with
    | [] =>
      obtain ⟨rfl, rfl⟩ := List.cons.inj hx
      exact .head rfl (.command hc hs)
    | [y] =>
      obtain ⟨hy, hx⟩ := List.cons.inj hx
      obtain ⟨rfl, rfl⟩ := List.cons.inj hx
      rw [← hy, ← List.nil_append [_]]
      exact .code rfl hc hs rfl rfl
    | y :: z :: front =>
      obtain ⟨hy, hx⟩ := List.cons.inj hx
      obtain ⟨hz, hx⟩ := List.cons.inj hx
      rcases split_append_cons hx with ⟨more, rfl, hmore⟩ | ⟨after, ho, rfl⟩
      · exact ((ih hmore).append _).cons z |>.cons y
      · rw [← hy, ← hz, ← List.nil_append (_ :: _)]
        exact .operand hc hs rfl ho rfl

/-- A character that makes a lexeme of its own does so before what stands behind it. -/
theorem Scan.plain_head {cs : List Char} {x : Lexeme} {xs : List Lexeme} (h : Scan m cs (x :: xs))
    (hx : x.kind = .blank ∨ x.kind = .stray) : ∃ c, x.text = [c] ∧ Plain m c (flatten xs) := by
  cases h with
  | loneMarker _ _ => simp at hx
  | command _ _ => simp at hx
  | trivia _ ht _ =>
    have htrivia := trivia?_kind ht
    rcases hx with hk | hk <;> simp [hk, isTrivia] at htrivia
  | @blank c _ _ hp _ hs => exact ⟨c, rfl, hs.flatten_eq ▸ hp⟩
  | @stray c _ _ hp _ hs => exact ⟨c, rfl, hs.flatten_eq ▸ hp⟩

end Zpl.Lexeme
