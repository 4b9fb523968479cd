import Zpl.Proofs.Relocation
import Zpl.Proofs.Share

/-! Streams of one shape. The built-in grammars look at the kinds of tokens and at the
values of codes; other values go into commands and positions are only told. So whatever
else is done to the tokens of a stream, its shares are the old ones with the same done to
their tokens (`shares_map`), and a command changes only where its own tokens do. -/

namespace Zpl

/-- A change of tokens that keeps what the grammars look at. -/
structure TokenMap where
  toFun : Token → Token
  kind : ∀ t, (toFun t).kind = t.kind
  code : ∀ t, t.kind = .code → (toFun t).value = t.value

/-- The values of operands are kept too. -/
def TokenMap.KeepsOperands (φ : TokenMap) : Prop :=
  ∀ t, Rule.isOperand t.kind → (φ.toFun t).value = t.value

section Map

variable (φ : TokenMap)

/-! ## Phrases and shares -/

theorem OperandsFit.map {code : String} {ts : List Token} (h : OperandsFit code ts) :
    OperandsFit code (ts.map φ.toFun) := by
  unfold OperandsFit at h ⊢
  split at h
  · next hcode =>
    obtain ⟨content, rfl, hkind⟩ := h
    rw [if_pos hcode]
    refine ⟨content.map φ.toFun, ?_, ?_⟩
    · cases content <;> rfl
    · intro t ht
      obtain ⟨u, hu, rfl⟩ := Option.map_eq_some_iff.mp ht
      exact (φ.kind u).trans (hkind u hu)
  · next hcode =>
    rw [if_neg hcode]
    intro t ht
    obtain ⟨u, hu, rfl⟩ := List.mem_map.mp ht
    exact (φ.kind u).trans (h u hu)

theorem Call.code_map (c : Call) : (φ.toFun c.code).value = c.code.value :=
  φ.code c.code c.code_kind

def Call.map (c : Call) : Call :=
  ⟨φ.toFun c.marker, φ.toFun c.code, c.operands.map φ.toFun,
    (φ.kind _).trans c.marker_kind, (φ.kind _).trans c.code_kind,
    (c.code_map φ).symm ▸ c.operands_fit.map φ⟩

def Folded.map (g : Folded) : Folded :=
  ⟨g.breaks.map φ.toFun, g.call.map φ, by
    intro t ht
    obtain ⟨u, hu, rfl⟩ := List.mem_map.mp ht
    exact (φ.kind u).trans (g.breaks_kind u hu)⟩

def Phrase.map : Phrase → Phrase
  | .call c => .call (c.map φ)
  | .lineBreak t kind => .lineBreak (φ.toFun t) ((φ.kind t).trans kind)
  | .other t kind => .other (φ.toFun t) ((φ.kind t).symm ▸ kind)

def Share.map (s : Share) : Share :=
  ⟨s.head.map φ, s.folded.map (Folded.map φ)⟩

theorem Phrase.tokens_map (ps : List Phrase) :
    (ps.map (Phrase.map φ)).flatMap tokens = (ps.flatMap tokens).map φ.toFun := by
  have hphrase : ∀ p : Phrase, (p.map φ).tokens = p.tokens.map φ.toFun := by
    intro p
    cases p <;> rfl
  simp only [List.flatMap_map, List.map_flatMap, hphrase]

theorem Share.tokens_map (s : Share) : (s.map φ).tokens = s.tokens.map φ.toFun := by
  have hcall : ∀ c : Call, (c.map φ).tokens = c.tokens.map φ.toFun := fun _ => rfl
  have hfolded : ∀ g : Folded, (g.map φ).tokens = g.tokens.map φ.toFun := by
    intro g
    simp only [Folded.tokens, Folded.map, hcall, List.map_append]
  simp only [tokens, map, List.map_append, hcall, List.flatMap_map, List.map_flatMap, hfolded]

theorem Call.Folds.map {c : Call} {fs : List Folded} (h : c.Folds fs) :
    (c.map φ).Folds (fs.map (Folded.map φ)) := by
  have hcode : ∀ d : Call, (d.map φ).code.value = d.code.value := Call.code_map φ
  cases h with
  | plain hFD hbarcode => exact .plain (hcode c ▸ hFD) (hcode c ▸ hbarcode)
  | openField hFD => exact .openField (hcode c ▸ hFD)
  | closedField hFD hFS => exact .closedField (hcode c ▸ hFD) ((hcode _).trans hFS)
  | bare hbarcode => exact .bare (hcode c ▸ hbarcode)
  | openData hbarcode hFD => exact .openData (hcode c ▸ hbarcode) ((hcode _).trans hFD)
  | closedData hbarcode hFD hFS =>
    exact .closedData (hcode c ▸ hbarcode) ((hcode _).trans hFD) ((hcode _).trans hFS)

/-! ## Folding -/

theorem Phrase.next?_map (code : String) (ps : List Phrase) :
    next? code (ps.map (Phrase.map φ)) =
      (next? code ps).map fun (g, rest) => (g.map φ, rest.map (Phrase.map φ)) := by
  induction ps with
  | nil => rfl
  | cons p ps ih =>
    cases p with
    | lineBreak t kind =>
      show (next? code (ps.map (Phrase.map φ))).map _ = ((next? code ps).map _).map _
      rw [ih, Option.map_map, Option.map_map]
      rfl
    | call c =>
      have hmapped : (c.map φ).code.value = c.code.value := c.code_map φ
      by_cases hcode : c.code.value = code
      · simp only [List.map_cons, map, next?, if_pos hcode, if_pos (hmapped.trans hcode)]
        rfl
      · simp only [List.map_cons, map, next?, hmapped, if_neg hcode]
        rfl
    | other t kind => rfl

theorem closing_map (ps : List Phrase) :
    closing (ps.map (Phrase.map φ)) =
      ((closing ps).1.map (Folded.map φ), (closing ps).2.map (Phrase.map φ)) := by
  unfold closing
  rw [Phrase.next?_map]
  cases Phrase.next? "FS" ps <;> rfl

theorem carried_map (ps : List Phrase) :
    carried (ps.map (Phrase.map φ)) =
      ((carried ps).1.map (Folded.map φ), (carried ps).2.map (Phrase.map φ)) := by
  unfold carried
  rw [Phrase.next?_map]
  cases Phrase.next? "FD" ps with
  | none => rfl
  | some found => simp only [Option.map_some, closing_map, List.map_cons]

theorem Call.fold_map (c : Call) (ps : List Phrase) :
    (c.map φ).fold (ps.map (Phrase.map φ)) =
      ((c.fold ps).1.map (Folded.map φ), (c.fold ps).2.map (Phrase.map φ)) := by
  have hcode : (c.map φ).code.value = c.code.value := c.code_map φ
  unfold fold
  rw [hcode]
  split
  · exact closing_map φ ps
  split
  · exact carried_map φ ps
  · rfl

/-- The shares of mapped phrases are the mapped shares. -/
theorem shares_map (ps : List Phrase) :
    shares (ps.map (Phrase.map φ)) = (shares ps).map (Share.map φ) := by
  fun_induction shares ps with
  | case1 => rw [List.map_nil, shares, List.map_nil]
  | case2 c ps ih =>
    rw [List.map_cons, Phrase.map, shares, Call.share, Call.fold_map]
    rw [ih, List.map_cons]
    rfl
  | case3 p ps hp ih =>
    cases p with
    | call c => exact absurd rfl (hp c)
    | lineBreak t kind =>
      rw [List.map_cons, Phrase.map, shares, ih]
      exact fun c hc => Phrase.noConfusion hc
    | other t kind =>
      rw [List.map_cons, Phrase.map, shares, ih]
      exact fun c hc => Phrase.noConfusion hc

/-! ## Commands -/

variable {φ}

theorem slot_map {ts : List Token} (h : (ts.map φ.toFun).map Token.value = ts.map Token.value)
    (i : Nat) : Rule.slot (ts.map φ.toFun) i = Rule.slot ts i := by
  simp only [Rule.slot, ← List.getElem?_map, h]

theorem contentValue_map {content : Option Token}
    (h : (content.map φ.toFun).map Token.value = content.map Token.value) :
    Rule.contentValue (content.map φ.toFun) = Rule.contentValue content := by
  rw [Rule.contentValue, Rule.contentValue, h]

namespace Share

theorem foldedOperands_map (φ : TokenMap) (s : Share) (code : String) :
    (s.map φ).foldedOperands code = (s.foldedOperands code).map φ.toFun := by
  have hcode : ∀ g : Folded, (g.map φ).call.code.value = g.call.code.value :=
    fun g => g.call.code_map φ
  have hoperands : ∀ g : Folded, (g.map φ).call.operands = g.call.operands.map φ.toFun :=
    fun _ => rfl
  simp only [foldedOperands, map, List.filter_map, List.flatMap_map, List.map_flatMap,
    Function.comp_def, hcode, hoperands]

theorem foldedOperands_operand (s : Share) (code : String) :
    ∀ t ∈ s.foldedOperands code, Rule.isOperand t.kind := by
  intro t ht
  obtain ⟨g, -, htg⟩ := List.mem_flatMap.mp ht
  exact g.call.operands_fit.isOperand t htg

theorem values_map (hφ : φ.KeepsOperands) {ts : List Token} (h : ∀ t ∈ ts, Rule.isOperand t.kind) :
    (ts.map φ.toFun).map Token.value = ts.map Token.value := by
  rw [List.map_map]
  exact List.map_congr_left fun t ht => hφ t (h t ht)

theorem kind_map (hφ : φ.KeepsOperands) (s : Share) : (s.map φ).kind = s.kind := by
  have hcode : (s.map φ).head.code.value = s.head.code.value := s.head.code_map φ
  have hoperands := values_map hφ s.head.operands_fit.isOperand
  have hslot : ∀ i, Rule.slot (s.map φ).head.operands i = Rule.slot s.head.operands i :=
    slot_map hoperands
  have hvalue : ∀ ts : List Token, (ts.map φ.toFun).map Token.value = ts.map Token.value →
      Rule.contentValue (ts.map φ.toFun).head? = Rule.contentValue ts.head? := by
    intro ts hts
    rw [List.head?_map]
    refine contentValue_map ?_
    rw [← List.head?_map, ← List.head?_map, ← List.head?_map, hts]
  have hown : Rule.contentValue (s.map φ).head.operands.head? =
      Rule.contentValue s.head.operands.head? := hvalue _ hoperands
  have hcontent : Rule.contentValue (s.map φ).content = Rule.contentValue s.content := by
    rw [content, foldedOperands_map]
    exact hvalue _ (values_map hφ (s.foldedOperands_operand "FD"))
  have hempty : (s.map φ).folded.isEmpty = s.folded.isEmpty := List.isEmpty_map
  simp only [kind, plainKind, hcode, hslot, hown, hcontent, hempty]

/-- A share that keeps its operands is the same command, with its text elsewhere. -/
theorem command_map (hφ : φ.KeepsOperands) (source source' : List Char) (s : Share) :
    (s.map φ).command source' =
      { s.command source with
        rawText := ((s.map φ).command source').rawText
        position := (φ.toFun s.head.marker).position } := by
  have hparameters : (s.map φ).parameters.map Token.value = s.parameters.map Token.value := by
    have hmapped : (s.map φ).parameters = s.parameters.map φ.toFun := by
      rw [parameters, foldedOperands_map, parameters, List.map_append]
      rfl
    rw [hmapped]
    refine values_map hφ fun t ht => ?_
    rcases List.mem_append.mp ht with ht | ht
    · exact s.head.operands_fit.isOperand t ht
    · exact s.foldedOperands_operand "FS" t ht
  have hcode : (s.map φ).head.code.value = s.head.code.value := s.head.code_map φ
  have hcommand : (s.map φ).command source' =
      ⟨(s.map φ).head.code.value, ((s.map φ).command source').rawText,
        (φ.toFun s.head.marker).position, (s.map φ).parameters.map Token.value,
        (s.map φ).kind⟩ := rfl
  rw [hcommand, hparameters, hcode, kind_map hφ]
  rfl

/-! ## Diagnostics -/

variable (φ) (s : Share)

theorem place_map : (s.map φ).place = ⟨s.head.code.value, (φ.toFun s.head.marker).position⟩ :=
  congrArg (Head.mk · _) (s.head.code_map φ)

/-- What is said of an error tells neither its place nor a value. -/
theorem errors_map : (s.map φ).errors =
    s.errors.map (Diagnostic.move fun _ => (φ.toFun s.head.marker).position) := by
  have hcode : (s.map φ).head.code.value = s.head.code.value := s.head.code_map φ
  have hlength : (s.map φ).head.operands.length = s.head.operands.length := List.length_map _
  unfold errors Rule.coordinateErrors Rule.missingCoordinates
  rw [hcode, place_map, hlength]
  split
  · split
    · rfl
    · rfl
  · rfl

/-- The wording of a warning tells its place. -/
theorem warnings_map : (s.map φ).warnings.map Diagnostic.summary =
    (s.warnings.map (Diagnostic.move fun _ => (φ.toFun s.head.marker).position)).map
      Diagnostic.summary := by
  have hcode : (s.map φ).head.code.value = s.head.code.value := s.head.code_map φ
  unfold warnings
  rw [hcode, place_map]
  split
  · rfl
  split
  · rfl
  · rfl

end Share
end Map
end Zpl
