import Zpl.Proofs.Account

/-! Two delimiters. A delimiter decides where the parameters of a command are divided and
nothing else: the tokens but the parameters, and the errors, are the same with another one. The
calls of two such streams are alike one by one, what each takes along is alike too, and the
content of a field and the data of a barcode do not depend on parameters (`parse_delimiter`). -/

namespace Zpl

/-- The content of a field, and whether it is closed. -/
def CommandKind.field? : CommandKind → Option (String × Bool)
  | .fieldData content closed => some (content, closed)
  | _ => none

/-- The streams may differ in their parameters. -/
structure TokenStream.Regroups (a b : TokenStream) : Prop where
  tokens : b.tokens.filter (·.kind != .parameter) = a.tokens.filter (·.kind != .parameter)
  errors : b.errors = a.errors

/-- The commands may differ in their parameters and in what those say. -/
structure Command.Regroups (c d : Command) : Prop where
  code : d.code = c.code
  position : d.position = c.position
  field : d.kind.field? = c.kind.field?
  data : d.kind.data? = c.kind.data?

/-- The calls may differ in their parameters, but not in a content. -/
structure Call.Alike (c d : Call) : Prop where
  marker : d.marker = c.marker
  code : d.code = c.code
  content : Lexeme.takesContent c.code.value.toList → d.operands = c.operands

inductive Phrase.Alike : Phrase → Phrase → Prop where
  | call {c d} : c.Alike d → Alike (.call c) (.call d)
  | lineBreak (t kind) : Alike (.lineBreak t kind) (.lineBreak t kind)
  | other (t kind) : Alike (.other t kind) (.other t kind)

def Folded.Alike (f g : Folded) : Prop :=
  f.call.Alike g.call

structure Share.Alike (s t : Share) : Prop where
  head : s.head.Alike t.head
  folded : List.Forall₂ Folded.Alike s.folded t.folded

/-! ## Lexemes -/

/-- Lexemes of one text, of which the one list may divide parameters in other ways. -/
structure Lexeme.Regroups (xs ys : List Lexeme) : Prop where
  text : flatten ys = flatten xs
  reports : ∀ p next, (place p next ys).filterMap Placed.report? =
    (place p next xs).filterMap Placed.report?
  phrases : ∀ p next, ∃ ps qs : List Phrase, List.Forall₂ Phrase.Alike ps qs ∧
    (place p next xs).filterMap Placed.token? = ps.flatMap Phrase.tokens ∧
    (place p next ys).filterMap Placed.token? = qs.flatMap Phrase.tokens

theorem Phrase.Alike.refl (p : Phrase) : p.Alike p := by
  cases p with
  | call c => exact .call ⟨rfl, rfl, fun _ => rfl⟩
  | lineBreak t kind => exact .lineBreak t kind
  | other t kind => exact .other t kind

namespace Lexeme

variable {m : Marks} {xs ys : List Lexeme}

theorem reports_place_cons (p : Position) (next : Option Char) (x : Lexeme) (xs : List Lexeme) :
    (place p next (x :: xs)).filterMap Placed.report? =
      (Placed.report? ⟨x, p, (flatten xs).head?.or next⟩).toList ++
        (place (p.after x.text ((flatten xs).head?.or next)) next xs).filterMap Placed.report? := by
  simp only [place, List.filterMap_cons]
  cases Placed.report? ⟨x, p, (flatten xs).head?.or next⟩ <;> rfl

theorem reports_operands (code line : List Char) (p : Position) (next : Option Char) :
    (place p next (operands m code line)).filterMap Placed.report? = [] := by
  rw [List.filterMap_eq_nil_iff]
  intro x hx
  obtain ⟨front, back, hxs, -⟩ := mem_place hx
  have hmem : x.lexeme ∈ operands m code line := by simp [hxs]
  rw [Placed.report?, problem?_operands hmem]
  rfl

theorem Regroups.nil : Regroups [] [] :=
  ⟨rfl, fun _ _ => rfl, fun _ _ => ⟨[], [], .nil, rfl, rfl⟩⟩

/-- One lexeme in front of both lists. -/
theorem Regroups.cons {x : Lexeme} (hleads : leads x.kind) (hx : x.kind ≠ .marker)
    (h : Regroups xs ys) : Regroups (x :: xs) (x :: ys) where
  text := by rw [flatten_cons, flatten_cons, h.text]
  reports := by
    intro p next
    rw [reports_place_cons, reports_place_cons, h.text, h.reports]
  phrases := by
    intro p next
    obtain ⟨first, hfirst⟩ := exists_phrases hleads hx p next
    obtain ⟨ps, qs, halike, hps, hqs⟩ := h.phrases (p.after x.text ((flatten xs).head?.or next)) next
    rw [← h.text] at hqs
    have hsame : List.Forall₂ Phrase.Alike first first := List.forall₂_same.mpr fun p _ => .refl p
    exact ⟨first ++ ps, first ++ qs, List.rel_append hsame halike, hfirst xs ps hps,
      hfirst ys qs hqs⟩

/-- A command in front of both lists, each time with its own delimiter. -/
theorem Regroups.command (marker d₁ d₂ : Char) (code line : List Char) (h : Regroups xs ys) :
    Regroups (⟨.marker, [marker]⟩ :: ⟨.code, code⟩ :: (operands ⟨marker, d₁⟩ code line ++ xs))
      (⟨.marker, [marker]⟩ :: ⟨.code, code⟩ :: (operands ⟨marker, d₂⟩ code line ++ ys)) where
  text := by
    simp only [flatten_cons, flatten_append, flatten_operands, h.text]
  reports := by
    intro p next
    simp only [reports_place_cons, place_append, List.filterMap_append, reports_operands,
      flatten_append, flatten_cons, flatten_operands, h.text, h.reports]
  phrases := by
    intro p next
    obtain ⟨t, word, start, stop, hword, hcall⟩ := exists_calls marker code line (flatten xs) p next
    obtain ⟨c, hmarker, hcode, hoperands, hc⟩ := hcall d₁ xs rfl
    obtain ⟨d, hmarker', hcode', hoperands', hd⟩ := hcall d₂ ys h.text
    obtain ⟨ps, qs, halike, hps, hqs⟩ := h.phrases stop next
    refine ⟨.call c :: ps, .call d :: qs, .cons (.call ⟨?_, ?_, ?_⟩) halike, ?_, ?_⟩
    · rw [hmarker, hmarker']
    · rw [hcode, hcode']
    · intro hcontent
      rw [hcode, hword, String.toList_ofList] at hcontent
      rw [hoperands, hoperands', operands, operands, if_pos hcontent, if_pos hcontent]
    · rw [hc, hps]
      rfl
    · rw [hd, hqs]
      rfl

/-- Another delimiter makes other parameters of a text. -/
theorem Scan.regroups {marker d₁ : Char} {cs : List Char} (h : Scan ⟨marker, d₁⟩ cs xs) (d₂ : Char) :
    ∃ ys, Scan ⟨marker, d₂⟩ cs ys ∧ Regroups xs ys := by
  induction h with
  | nil => exact ⟨[], .nil, .nil⟩
  | loneMarker hcode _ ih =>
    obtain ⟨ys, hys, hregroups⟩ := ih
    exact ⟨_, .loneMarker (m := ⟨marker, d₂⟩) hcode hys, hregroups.cons rfl (by simp)⟩
  | @command code line rest xs hc _ ih =>
    obtain ⟨ys, hys, hregroups⟩ := ih
    -- where the line of a command ends depends on the marker alone
    exact ⟨_, .command (m := ⟨marker, d₂⟩) ⟨hc.code, hc.line, hc.ends⟩ hys,
      hregroups.command marker d₁ d₂ code line⟩
  | trivia hm ht _ ih =>
    obtain ⟨ys, hys, hregroups⟩ := ih
    have htrivia := trivia?_kind ht
    exact ⟨_, .trivia hm ht hys,
      hregroups.cons (leads_of_isTrivia htrivia) fun hk => by simp [hk, isTrivia] at htrivia⟩
  | blank hp hb _ ih =>
    obtain ⟨ys, hys, hregroups⟩ := ih
    exact ⟨_, .blank ⟨hp.not_marker, hp.not_trivia⟩ hb hys, hregroups.cons rfl (by simp)⟩
  | stray hp hb _ ih =>
    obtain ⟨ys, hys, hregroups⟩ := ih
    exact ⟨_, .stray ⟨hp.not_marker, hp.not_trivia⟩ hb hys, hregroups.cons rfl (by simp)⟩

end Lexeme

/-! ## Phrases -/

section Phrases

variable {c d : Call} {ps qs : List Phrase}

/-- Alike calls differ in parameters only. -/
theorem Call.Alike.operands (h : c.Alike d) :
    d.operands.filter (·.kind != .parameter) = c.operands.filter (·.kind != .parameter) := by
  by_cases hcontent : Lexeme.takesContent c.code.value.toList
  · rw [h.content hcontent]
  · have hc := c.operands_fit
    have hd := d.operands_fit
    rw [OperandsFit, if_neg hcontent] at hc
    rw [OperandsFit, h.code, if_neg hcontent] at hd
    rw [List.filter_eq_nil_iff.mpr (by simpa using hd), List.filter_eq_nil_iff.mpr (by simpa using hc)]

theorem Phrase.Alike.tokens {p q : Phrase} (h : p.Alike q) :
    q.tokens.filter (·.kind != .parameter) = p.tokens.filter (·.kind != .parameter) := by
  cases h with
  | call h =>
    simp only [Phrase.tokens, Call.tokens, List.filter_cons, h.marker, h.code, h.operands]
  | lineBreak | other => rfl

theorem tokens_alike (h : List.Forall₂ Phrase.Alike ps qs) :
    (qs.flatMap Phrase.tokens).filter (·.kind != .parameter) =
      (ps.flatMap Phrase.tokens).filter (·.kind != .parameter) := by
  induction h with
  | nil => rfl
  | cons hp _ ih =>
    rw [List.flatMap_cons, List.flatMap_cons, List.filter_append, List.filter_append, hp.tokens, ih]

/-- The next call is found in both lists or in none. -/
theorem next?_alike {code : String} (h : List.Forall₂ Phrase.Alike ps qs) :
    (Phrase.next? code ps = none ∧ Phrase.next? code qs = none) ∨
      ∃ f rest g rest', Phrase.next? code ps = some (f, rest) ∧
        Phrase.next? code qs = some (g, rest') ∧ f.Alike g ∧
        List.Forall₂ Phrase.Alike rest rest' := by
  induction h with
  | nil => exact .inl ⟨rfl, rfl⟩
  | @cons p q ps qs hp hps ih =>
    cases hp with
    | lineBreak t kind =>
      simp only [Phrase.next?]
      rcases ih with ⟨hnone, hnone'⟩ | ⟨f, rest, g, rest', hf, hg, halike, hrest⟩
      · exact .inl ⟨by rw [hnone]; rfl, by rw [hnone']; rfl⟩
      · exact .inr ⟨f.cons t kind, rest, g.cons t kind, rest', by rw [hf]; rfl, by rw [hg]; rfl,
          halike, hrest⟩
    | @call c d h =>
      simp only [Phrase.next?, h.code]
      by_cases hcode : c.code.value = code
      · rw [if_pos hcode, if_pos hcode]
        exact .inr ⟨_, _, _, _, rfl, rfl, h, hps⟩
      · rw [if_neg hcode, if_neg hcode]
        exact .inl ⟨rfl, rfl⟩
    | other t kind => exact .inl ⟨rfl, rfl⟩

theorem closing_alike (h : List.Forall₂ Phrase.Alike ps qs) :
    List.Forall₂ Folded.Alike (closing ps).1 (closing qs).1 ∧
      List.Forall₂ Phrase.Alike (closing ps).2 (closing qs).2 := by
  unfold closing
  rcases next?_alike h with ⟨hp, hq⟩ | ⟨f, rest, g, rest', hp, hq, halike, hrest⟩
  · rw [hp, hq]
    exact ⟨.nil, h⟩
  · rw [hp, hq]
    exact ⟨.cons halike .nil, hrest⟩

theorem carried_alike (h : List.Forall₂ Phrase.Alike ps qs) :
    List.Forall₂ Folded.Alike (carried ps).1 (carried qs).1 ∧
      List.Forall₂ Phrase.Alike (carried ps).2 (carried qs).2 := by
  unfold carried
  rcases next?_alike h with ⟨hp, hq⟩ | ⟨f, rest, g, rest', hp, hq, halike, hrest⟩
  · rw [hp, hq]
    exact ⟨.nil, h⟩
  · rw [hp, hq]
    obtain ⟨hfolded, hbehind⟩ := closing_alike hrest
    exact ⟨.cons halike hfolded, hbehind⟩

theorem fold_alike (hcall : c.Alike d) (h : List.Forall₂ Phrase.Alike ps qs) :
    List.Forall₂ Folded.Alike (c.fold ps).1 (d.fold qs).1 ∧
      List.Forall₂ Phrase.Alike (c.fold ps).2 (d.fold qs).2 := by
  unfold Call.fold
  rw [hcall.code]
  split
  · exact closing_alike h
  split
  · exact carried_alike h
  · exact ⟨.nil, h⟩

/-- Alike phrases have alike shares. -/
theorem shares_alike (h : List.Forall₂ Phrase.Alike ps qs) :
    List.Forall₂ Share.Alike (shares ps) (shares qs) := by
  fun_induction shares ps generalizing qs with
  | case1 =>
    obtain rfl := List.forall₂_nil_left_iff.mp h
    rw [shares]
    exact .nil
  | case2 c ps ih =>
    obtain ⟨_, qs, ⟨hcall⟩, hps, rfl⟩ := List.forall₂_cons_left_iff.mp h
    obtain ⟨hfolded, hbehind⟩ := fold_alike hcall hps
    rw [shares]
    exact .cons ⟨hcall, hfolded⟩ (ih hbehind)
  | case3 p ps hp ih =>
    obtain ⟨q, qs, hpq, hps, rfl⟩ := List.forall₂_cons_left_iff.mp h
    cases hpq with
    | call => exact absurd rfl (hp _)
    | lineBreak | other =>
      rw [shares]
      · exact ih hps
      · exact hp

end Phrases

/-! ## Commands -/

section Commands

variable {s t : Share}

/-- What a barcode takes along as its data is a content. -/
theorem foldedOperands_alike (h : s.Alike t) : t.foldedOperands "FD" = s.foldedOperands "FD" := by
  obtain ⟨c, fs⟩ := s
  obtain ⟨d, gs⟩ := t
  have hfolded : List.Forall₂ Folded.Alike fs gs := h.folded
  simp only [Share.foldedOperands]
  induction hfolded with
  | nil => rfl
  | @cons f g fs gs hf hfs ih =>
    have hrest := ih ⟨h.head, hfs⟩
    simp only [List.filter_cons, hf.code]
    by_cases hFD : f.call.code.value = "FD"
    · have hoperands := hf.content (by rw [hFD]; decide)
      simp [hFD, hoperands, hrest]
    · simp [hFD, hrest]

theorem plainKind_field? (code : String) (ts : List Token) : (plainKind code ts).field? = none := by
  unfold plainKind
  split <;> rfl

/-- Fields and barcodes say the same in alike shares. -/
theorem Share.Alike.kind (h : s.Alike t) :
    t.kind.field? = s.kind.field? ∧ t.kind.data? = s.kind.data? := by
  have hcode : t.head.code.value = s.head.code.value := congrArg Token.value h.head.code
  by_cases hFD : s.head.code.value = "FD"
  · have hoperands := h.head.content (by rw [hFD]; decide)
    have hclosed : t.folded.isEmpty = s.folded.isEmpty := by
      rw [Bool.eq_iff_iff, List.isEmpty_iff_length_eq_zero, List.isEmpty_iff_length_eq_zero,
        h.folded.length_eq]
    rw [kind_field hFD, kind_field (hcode.trans hFD), hoperands, hclosed]
    exact ⟨rfl, rfl⟩
  by_cases hbarcode : s.head.code.value ∈ barcodeCodes
  · rw [kind_barcode hbarcode, kind_barcode (hcode ▸ hbarcode), content, content,
      foldedOperands_alike h]
    exact ⟨rfl, rfl⟩
  · rw [kind_plain hFD hbarcode, kind_plain (hcode ▸ hFD) (hcode ▸ hbarcode), plainKind_field?,
      plainKind_field?, plainKind_data?, plainKind_data?]
    exact ⟨rfl, rfl⟩

theorem Share.Alike.command (source : List Char) (h : s.Alike t) :
    (s.command source).Regroups (t.command source) :=
  ⟨congrArg Token.value h.head.code, congrArg Token.position h.head.marker, h.kind.1, h.kind.2⟩

end Commands

/-- A source read with two delimiters. The streams differ in their parameters only. Both documents
have the same commands at the same places, and what fields and barcodes say of their contents does
not depend on the delimiter. -/
theorem parse_delimiter (marker d₁ d₂ : Char) (padding : Int32) (source : String) :
    (TokenStream.ofText ⟨marker, d₁⟩ source).Regroups (TokenStream.ofText ⟨marker, d₂⟩ source) ∧
      List.Forall₂ Command.Regroups
        ((Parser.mk .builtin ⟨marker, d₁⟩ padding).parse source).commands
        ((Parser.mk .builtin ⟨marker, d₂⟩ padding).parse source).commands := by
  obtain ⟨ys, hscan, hregroups⟩ := (Lexeme.scan_lexemes ⟨marker, d₁⟩ source.toList).regroups d₂
  obtain ⟨ps, qs, halike, hps, hqs⟩ := hregroups.phrases .start none
  rw [← hscan.eq] at hqs
  have htokens := TokenStream.ofText_tokens ⟨marker, d₁⟩ source
  have htokens' := TokenStream.ofText_tokens ⟨marker, d₂⟩ source
  rw [hps] at htokens
  rw [hqs] at htokens'
  refine ⟨⟨?_, ?_⟩, ?_⟩
  · rw [htokens, htokens', List.filter_append, List.filter_append, tokens_alike halike]
  · rw [TokenStream.ofText_errors, TokenStream.ofText_errors, hscan.eq, hregroups.reports]
  · rw [Parser.parse_shares padding htokens, Parser.parse_shares padding htokens',
      List.forall₂_map_left_iff, List.forall₂_map_right_iff]
    exact (shares_alike halike).imp fun s t h => h.command source.toList

end Zpl
