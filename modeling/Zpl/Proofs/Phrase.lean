import Zpl.Proofs.Passing
import Zpl.Proofs.Placement

/-! Phrases: the whole units of a token stream. A phrase is a call, that is a marker
with its code and the operands that fit the code, or a single token that no call
begins with. The tokens of every source are those of a list of phrases and the token
for the end (`ofText_phrases`), so a parameter or a content never stands alone. -/

namespace Zpl

/-- What a grammar of the built-in set sees of a token. -/
def Token.view (t : Token) : TokenKind × String :=
  (t.kind, t.value)

namespace Lexeme

def view? (x : Lexeme) : Option (TokenKind × String) :=
  (tokenKind? x.kind).map fun kind => (kind, .ofList x.value)

/-- Kinds and values of tokens do not depend on where the text stands. -/
theorem view_place (p : Position) (next : Option Char) (xs : List Lexeme) :
    ((place p next xs).filterMap Placed.token?).map Token.view = xs.filterMap view? := by
  induction xs generalizing p with
  | nil => rfl
  | cons x xs ih =>
    simp only [place, List.filterMap_cons, Placed.token?, token?, view?]
    cases tokenKind? x.kind with
    | none => exact ih _
    | some kind =>
      simp only [Option.map_some, List.map_cons]
      rw [ih]
      rfl

end Lexeme

/-- Behind `FD` and `FV` stands at most one content, behind other codes parameters. -/
def OperandsFit (code : String) (operands : List Token) : Prop :=
  if Lexeme.takesContent code.toList then
    ∃ content : Option Token, operands = content.toList ∧ ∀ t, content = some t → t.kind = .content
  else ∀ t ∈ operands, t.kind = .parameter

theorem OperandsFit.isOperand {code : String} {ts : List Token} (h : OperandsFit code ts) :
    ∀ t ∈ ts, Rule.isOperand t.kind := by
  intro t ht
  unfold OperandsFit at h
  split at h
  · obtain ⟨content, rfl, hkind⟩ := h
    rw [hkind t (Option.mem_toList.mp ht)]
    rfl
  · rw [h t ht]
    rfl

/-- A marker with its code and operands. -/
structure Call where
  marker : Token
  code : Token
  operands : List Token
  marker_kind : marker.kind = .marker
  code_kind : code.kind = .code
  operands_fit : OperandsFit code.value operands

inductive Phrase where
  | call (c : Call)
  | lineBreak (t : Token) (kind : t.kind = .lineBreak)
  /-- A comment, or a marker without a code. -/
  | other (t : Token) (kind : t.kind = .comment ∨ t.kind = .marker)

def Call.tokens (c : Call) : List Token :=
  c.marker :: c.code :: c.operands

def Phrase.tokens : Phrase → List Token
  | .call c => c.tokens
  | .lineBreak t _ => [t]
  | .other t _ => [t]

namespace Phrase

/-- A list of phrases starts with none of the tokens that belong behind a marker. -/
theorem head_kind {ps : List Phrase} {t : Token} (h : (ps.flatMap tokens).head? = some t) :
    t.kind = .marker ∨ t.kind = .lineBreak ∨ t.kind = .comment := by
  cases ps with
  | nil => simp at h
  | cons p ps =>
    cases p with
    | call c =>
      obtain rfl : c.marker = t := by simpa [tokens, Call.tokens] using h
      exact .inl c.marker_kind
    | lineBreak u hu =>
      obtain rfl : u = t := by simpa [tokens] using h
      exact .inr (.inl hu)
    | other u hu =>
      obtain rfl : u = t := by simpa [tokens] using h
      exact hu.elim (fun h => .inr (.inr h)) .inl

/-- A phrase that is no call is one token. -/
theorem single {p : Phrase} (h : ∀ c, p = .call c → False) :
    ∃ t, p.tokens = [t] ∧ (t.kind = .lineBreak ∨ t.kind = .comment ∨ t.kind = .marker) := by
  cases p with
  | call c => exact absurd rfl (h c)
  | lineBreak t hk => exact ⟨t, rfl, .inl hk⟩
  | other t hk => exact ⟨t, rfl, .inr hk⟩

theorem startsWithout_operand (ps : List Phrase) :
    StartsWithout Rule.isOperand (ps.flatMap tokens) := by
  intro t ht
  rcases head_kind ht with hk | hk | hk <;> rw [hk] <;> rfl

theorem startsWithout_parameter (ps : List Phrase) :
    StartsWithout (· == .parameter) (ps.flatMap tokens) := by
  intro t ht
  rcases head_kind ht with hk | hk | hk <;> rw [hk] <;> rfl

end Phrase

namespace Lexeme

variable {m : Marks}

theorem view?_each_blank (cs : List Char) : (each .blank cs).filterMap view? = [] := by
  rw [List.filterMap_eq_nil_iff]
  intro x hx
  obtain ⟨c, -, rfl⟩ := List.mem_map.mp hx
  rfl

/-- Field content is one token with the trimmed line as its value, or none. -/
theorem view?_fieldContent (line : List Char) :
    (fieldContent line).filterMap view? =
      if (Text.trimEnd line).isEmpty then [] else [(.content, .ofList (Text.trimEnd line))] := by
  simp only [fieldContent]
  split
  · exact view?_each_blank _
  · simp [view?_each_blank, view?, tokenKind?, value]

theorem operandsFit_of_view {code line : List Char} {ts : List Token}
    (h : ts.map Token.view = (operands m code line).filterMap view?) :
    OperandsFit (.ofList code) ts := by
  unfold OperandsFit
  rw [String.toList_ofList]
  by_cases hcode : takesContent code
  · rw [if_pos hcode]
    rw [operands, if_pos hcode, view?_fieldContent] at h
    split at h
    · exact ⟨none, List.map_eq_nil_iff.mp h, by simp⟩
    · obtain ⟨t, rfl, ht⟩ := List.map_eq_singleton_iff.mp h
      refine ⟨some t, rfl, fun u hu => ?_⟩
      obtain rfl := Option.some.inj hu
      exact congrArg Prod.fst ht
  · rw [if_neg hcode]
    intro t ht
    have hmem : t.view ∈ (operands m code line).filterMap view? := h ▸ List.mem_map_of_mem ht
    obtain ⟨x, hx, hview⟩ := List.mem_filterMap.mp hmem
    have hkind := operands_kind hx
    rw [if_neg hcode] at hkind
    rcases hkind with hk | hk
    · simp [view?, hk, tokenKind?] at hview
    · simp only [view?, hk, tokenKind?, Option.map_some, Option.some.injEq] at hview
      exact (congrArg Prod.fst hview).symm

/-- The tokens of a command and of what stands behind it. The delimiter decides how the operands
are divided, and nothing else. -/
theorem exists_calls (marker : Char) (code line cs : List Char) (p : Position) (next : Option Char) :
    ∃ (t word : Token) (start stop : Position), word.value = .ofList code ∧
      ∀ delimiter xs, flatten xs = cs → ∃ c : Call, c.marker = t ∧ c.code = word ∧
        c.operands = (place start (cs.head?.or next)
          (operands ⟨marker, delimiter⟩ code line)).filterMap Placed.token? ∧
        (place p next (⟨.marker, [marker]⟩ :: ⟨.code, code⟩ ::
            (operands ⟨marker, delimiter⟩ code line ++ xs))).filterMap Placed.token? =
          c.tokens ++ (place stop next xs).filterMap Placed.token? := by
  generalize hstart : (p.after [marker] ((code ++ (line ++ cs)).head?.or next)).after code
    ((line ++ cs).head?.or next) = start
  refine ⟨⟨.marker, .ofList [marker], p, .ofList [marker]⟩, ⟨.code, .ofList code,
    p.after [marker] ((code ++ (line ++ cs)).head?.or next), .ofList code⟩, start,
    start.after line (cs.head?.or next), rfl, ?_⟩
  rintro delimiter xs rfl
  have hview := view_place start ((flatten xs).head?.or next) (operands ⟨marker, delimiter⟩ code line)
  refine ⟨⟨⟨.marker, .ofList [marker], p, .ofList [marker]⟩, ⟨.code, .ofList code, _, .ofList code⟩, _,
    rfl, rfl, operandsFit_of_view hview⟩, rfl, rfl, rfl, ?_⟩
  rw [tokens_place_cons, tokens_place_cons, place_append, List.filterMap_append]
  simp only [flatten_cons, flatten_append, flatten_operands, hstart]
  rfl

theorem exists_call (code line : List Char) (p : Position) (next : Option Char) (xs : List Lexeme) :
    ∃ (c : Call) (q : Position), c.code.value = .ofList code ∧
      c.operands.map Token.view = (operands m code line).filterMap view? ∧
      (place p next (⟨.marker, [m.marker]⟩ :: ⟨.code, code⟩ :: (operands m code line ++ xs))).filterMap
        Placed.token? = c.tokens ++ (place q next xs).filterMap Placed.token? := by
  obtain ⟨t, word, start, stop, hword, hcall⟩ :=
    exists_calls m.marker code line (flatten xs) p next
  obtain ⟨c, -, rfl, hoperands, htokens⟩ := hcall m.delimiter xs rfl
  exact ⟨c, stop, hword, hoperands ▸ view_place start _ _, htokens⟩

/-- A lexeme that is no part of a command is a phrase, or none, in front of any others. -/
theorem exists_phrases {x : Lexeme} (h : leads x.kind) (hx : x.kind ≠ .marker) (p : Position)
    (next : Option Char) : ∃ first : List Phrase, ∀ xs (ps : List Phrase),
      (place (p.after x.text ((flatten xs).head?.or next)) next xs).filterMap Placed.token? =
        ps.flatMap Phrase.tokens →
      (place p next (x :: xs)).filterMap Placed.token? = (first ++ ps).flatMap Phrase.tokens := by
  obtain ⟨first, hfirst⟩ : ∃ first : List Phrase,
      (x.token? p).toList = first.flatMap Phrase.tokens := by
    obtain ⟨kind, text⟩ := x
    cases kind with
    | blank | stray => exact ⟨[], rfl⟩
    | lineBreak => exact ⟨[.lineBreak ⟨.lineBreak, _, p, _⟩ rfl], rfl⟩
    | lineComment | blockComment | openComment =>
      exact ⟨[.other ⟨.comment, _, p, _⟩ (.inl rfl)], rfl⟩
    | loneMarker => exact ⟨[.other ⟨.marker, _, p, _⟩ (.inr rfl)], rfl⟩
    | marker => exact absurd rfl hx
    | separator | code | parameter | content => simp [leads] at h
  refine ⟨first, fun xs ps hps => ?_⟩
  rw [tokens_place_cons, hfirst, hps, List.flatMap_append]

theorem Scan.phrases {cs : List Char} {xs : List Lexeme} (h : Scan m cs xs) (p : Position)
    (next : Option Char) :
    ∃ ps : List Phrase, (place p next xs).filterMap Placed.token? = ps.flatMap Phrase.tokens := by
  have single : ∀ {x : Lexeme} {xs : List Lexeme}, leads x.kind → x.kind ≠ .marker →
      (∀ p, ∃ ps : List Phrase, (place p next xs).filterMap Placed.token? =
        ps.flatMap Phrase.tokens) →
      ∀ p, ∃ ps : List Phrase, (place p next (x :: xs)).filterMap Placed.token? =
        ps.flatMap Phrase.tokens := by
    intro x xs hleads hx ih p
    obtain ⟨first, hfirst⟩ := exists_phrases hleads hx p next
    obtain ⟨ps, hps⟩ := ih (p.after x.text ((flatten xs).head?.or next))
    exact ⟨first ++ ps, hfirst xs ps hps⟩
  induction h generalizing p with
  | nil => exact ⟨[], rfl⟩
  | loneMarker _ _ ih => exact single rfl (by simp) ih p
  | @command code line _ xs _ _ ih =>
    obtain ⟨c, q, -, -, htokens⟩ := exists_call (m := m) code line p next xs
    obtain ⟨ps, hps⟩ := ih q
    exact ⟨.call c :: ps, by rw [htokens, hps]; rfl⟩
  | trivia _ ht _ ih =>
    have htrivia := trivia?_kind ht
    exact single (leads_of_isTrivia htrivia) (fun hk => by simp [hk, isTrivia] at htrivia) ih p
  | blank _ _ _ ih => exact single rfl (by simp) ih p
  | stray _ _ _ ih => exact single rfl (by simp) ih p

end Lexeme

/-- The tokens of every source are whole phrases, and the token for the end. -/
theorem TokenStream.ofText_phrases (m : Marks) (source : String) :
    ∃ (ps : List Phrase) (p : Position),
      (ofText m source).tokens = ps.flatMap Phrase.tokens ++ [.finishAt p] := by
  obtain ⟨ps, hps⟩ := (Lexeme.scan_lexemes m source.toList).phrases .start none
  exact ⟨ps, _, by rw [ofText_tokens, hps]⟩

end Zpl
