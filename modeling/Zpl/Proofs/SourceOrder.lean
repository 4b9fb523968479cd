import Zpl.Proofs.Recovery

/-! Diagnostics in the order of the source. A reader never turns back, so the offset of its
next token only grows. A command reports errors at its marker, and one more at the token where
its rule fails; it warns at its marker or at the next token. So all that was noticed stands in
order and not behind the next token (`Reader.Ordered`), in front of each command and at the end
(`parse_ordered`). -/

namespace Zpl

/-- The diagnostics stand in the order of the source, and none of them behind an offset. -/
structure Diagnostic.UpTo (limit : Nat) (ds : List Diagnostic) : Prop where
  ordered : ds.Pairwise fun d e => d.position.offset ≤ e.position.offset
  bounded : ∀ d ∈ ds, d.position.offset ≤ limit

/-- The lexical errors come first in a document, in the strict order of the source, and then
the errors of its commands in their order. Its warnings are in order, too. -/
structure Document.InOrder (lexical : List Diagnostic) (doc : Document) : Prop where
  strict : lexical.Pairwise fun d e => d.position.offset < e.position.offset
  errors : ∃ own, doc.metadata.errors = lexical ++ own ∧
    own.Pairwise fun d e => d.position.offset ≤ e.position.offset
  warnings : doc.metadata.warnings.Pairwise fun d e => d.position.offset ≤ e.position.offset

namespace Diagnostic.UpTo

variable {limit : Nat} {ds es : List Diagnostic}

theorem nil (limit : Nat) : UpTo limit [] :=
  ⟨.nil, List.forall_mem_nil _⟩

theorem mono (h : UpTo limit ds) {limit' : Nat} (hle : limit ≤ limit') : UpTo limit' ds :=
  ⟨h.ordered, fun d hd => Nat.le_trans (h.bounded d hd) hle⟩

/-- More diagnostics at the offset itself keep the order. -/
theorem append (h : UpTo limit ds) (hes : ∀ e ∈ es, e.position.offset = limit) :
    UpTo limit (ds ++ es) := by
  constructor
  · refine List.pairwise_append.mpr ⟨h.ordered, List.pairwise_of_forall_mem_list ?_, ?_⟩
    · intro d hd e he
      exact Nat.le_of_eq ((hes d hd).trans (hes e he).symm)
    · intro d hd e he
      rw [hes e he]
      exact h.bounded d hd
  · intro d hd
    rcases List.mem_append.mp hd with hd | hd
    · exact h.bounded d hd
    · exact Nat.le_of_eq (hes d hd)

end Diagnostic.UpTo

/-! ## Readers -/

namespace Reader

/-- The offset of the next token. -/
def nextOffset (r : Reader) : Nat :=
  r.cursor.peek.position.offset

/-- The reader has noticed, besides the lexical errors, errors up to one offset and warnings
up to another. -/
structure Noticed (lexical : List Diagnostic) (errorsTo warningsTo : Nat) (r : Reader) : Prop where
  errors : ∃ own, r.errors = lexical ++ own ∧ Diagnostic.UpTo errorsTo own
  warnings : Diagnostic.UpTo warningsTo r.warnings

/-- All that the reader has noticed stands in order before its next token, or at it. -/
def Ordered (lexical : List Diagnostic) (r : Reader) : Prop :=
  r.Noticed lexical r.nextOffset r.nextOffset

variable {m : Marks} {source : String} {r s : Reader} {ts : List Token}
  {lexical : List Diagnostic} {errorsTo warningsTo : Nat}

theorem Noticed.mono (h : r.Noticed lexical errorsTo warningsTo) {errorsTo' warningsTo' : Nat}
    (herrors : errorsTo ≤ errorsTo') (hwarnings : warningsTo ≤ warningsTo') :
    r.Noticed lexical errorsTo' warningsTo' := by
  obtain ⟨own, hown, hupTo⟩ := h.errors
  exact ⟨⟨own, hown, hupTo.mono herrors⟩, h.warnings.mono hwarnings⟩

theorem Noticed.moveTo (h : r.Noticed lexical errorsTo warningsTo) (c : Cursor) :
    (r.moveTo c).Noticed lexical errorsTo warningsTo :=
  ⟨h.errors, h.warnings⟩

/-- More errors and warnings at the two offsets. -/
theorem Noticed.add (h : r.Noticed lexical errorsTo warningsTo) {errors warnings : List Diagnostic}
    (herrors : s.errors = r.errors ++ errors)
    (herrorsAt : ∀ d ∈ errors, d.position.offset = errorsTo)
    (hwarnings : s.warnings = r.warnings ++ warnings)
    (hwarningsAt : ∀ d ∈ warnings, d.position.offset = warningsTo) :
    s.Noticed lexical errorsTo warningsTo := by
  obtain ⟨own, hown, hupTo⟩ := h.errors
  constructor
  · refine ⟨own ++ errors, ?_, hupTo.append herrorsAt⟩
    rw [herrors, hown, List.append_assoc]
  · rw [hwarnings]
    exact h.warnings.append hwarningsAt

/-- Tokens stand in the order of the source, so the next one is never an earlier one. -/
theorem Reads.nextOffset_le (h : r.Reads m source) (hrs : r.Advances ts s) :
    r.nextOffset ≤ s.nextOffset := by
  unfold nextOffset
  have hahead := hrs.cursor.ahead
  cases ts with
  | nil =>
    rw [Cursor.peek, Cursor.peek, Cursor.peekNth, Cursor.peekNth, hahead, hrs.cursor.last]
    exact Nat.le_refl _
  | cons t ts =>
    have hordered := TokenStream.ofText_ordered m source
    rw [← (h.advance hrs).tokens, Cursor.tokens, hrs.cursor.behind, List.append_assoc,
      List.pairwise_append] at hordered
    rw [Cursor.peek_of_ahead hahead]
    exact Nat.le_trans (Nat.le_add_right _ _)
      (hordered.2.2 t (by simp) s.cursor.peek s.cursor.peek_mem)

end Reader

/-! ## Rules -/

/-- Behind a head, and with all warnings so far in front of the next token, the program reports
errors at the head only and warns of the tokens it comes to. -/
def Grammar.KeepsOrder {α : Type} (m : Marks) (source : String) (head : Head) (g : Grammar α) :
    Prop :=
  ∀ (lexical : List Diagnostic) (r : Reader), r.Reads m source →
    r.Noticed lexical head.position.offset r.nextOffset →
    (g.run r).2.Noticed lexical head.position.offset (g.run r).2.nextOffset

/-- A rule keeps to the order of the source if all that was noticed before stands in front of
its head: it reports errors at the head and warns between the head and the token it stops at. -/
def Rule.KeepsOrder (m : Marks) (source : String) (rule : Rule) : Prop :=
  ∀ (lexical : List Diagnostic) (head : Head) (r : Reader), r.Reads m source →
    head.position.offset ≤ r.nextOffset →
    r.Noticed lexical head.position.offset head.position.offset →
    ((rule head).run r).2.Noticed lexical head.position.offset ((rule head).run r).2.nextOffset

section Rules

variable {m : Marks} {source : String}

/-- Such a rule warns at its head, with the next token further on already. -/
theorem Rule.TellsOfHead.keepsOrder {rule : Rule} (h : ∀ head, TellsOfHead head (rule head)) :
    rule.KeepsOrder m source := by
  intro lexical head r hreads hle hnoticed
  obtain ⟨ts, hts⟩ := (rule head).run_advances r
  obtain ⟨errors, warnings, herrors, herrorsAt, hwarnings, hwarningsAt⟩ := (h head).run r
  have hhead := hnoticed.add herrors (fun d hd => congrArg Position.offset (herrorsAt d hd).2)
    hwarnings fun d hd => congrArg Position.offset (hwarningsAt d hd)
  exact hhead.mono (Nat.le_refl _) (Nat.le_trans hle (hreads.nextOffset_le hts))

namespace Grammar

variable {α β : Type} {head : Head}

theorem keepsOrder_done (result : α) : (done result).KeepsOrder m source head :=
  fun _ _ _ hnoticed => hnoticed

theorem KeepsOrder.bind {g : Grammar α} {f : α → Grammar β} (hg : g.KeepsOrder m source head)
    (hf : ∀ a, (f a).KeepsOrder m source head) : (g.bind f).KeepsOrder m source head := by
  intro lexical r hreads hnoticed
  have hfirst := hg lexical r hreads hnoticed
  obtain ⟨ts, hts⟩ := g.run_advances r
  rw [run_bind]
  split
  · next a s hrun =>
    rw [hrun] at hfirst hts
    exact hf a lexical s (hreads.advance hts) hfirst
  · next hrun =>
    rw [hrun] at hfirst
    exact hfirst

end Grammar

namespace Script

/-- A step reports at the head and warns at the next token. -/
theorem perform_keepsOrder (head : Head) (step : ScriptStep) :
    (perform head step).KeepsOrder m source head := by
  intro lexical r hreads hnoticed
  by_cases hwarn : ∃ message, step = .warn message
  · obtain ⟨message, rfl⟩ := hwarn
    exact hnoticed.add (List.append_nil _).symm (List.forall_mem_nil _) rfl
      (List.forall_mem_singleton.mpr rfl)
  · obtain ⟨ts, hts⟩ := (perform head step).run_advances r
    obtain ⟨errors, warnings, herrors, herrorsAt, hwarnings, hwarningsAt⟩ :=
      (perform_tells head step).run r
    have hhead := hnoticed.add herrors (fun d hd => congrArg Position.offset (herrorsAt d hd).2)
      hwarnings fun d hd => absurd (hwarningsAt d hd) hwarn
    exact hhead.mono (Nat.le_refl _) (hreads.nextOffset_le hts)

theorem performAll_keepsOrder (head : Head) (steps : List ScriptStep) :
    (performAll head steps).KeepsOrder m source head := by
  induction steps with
  | nil => exact Grammar.keepsOrder_done _
  | cons step steps ih =>
    exact (perform_keepsOrder head step).bind fun _ => ih.bind fun _ => Grammar.keepsOrder_done _

theorem rule_keepsOrder (s : Script) : s.rule.KeepsOrder m source := by
  intro lexical head r hreads hle hnoticed
  have hrule : (s.rule head).KeepsOrder m source head :=
    (performAll_keepsOrder head s.steps).bind fun _ => Grammar.keepsOrder_done _
  exact hrule lexical r hreads (hnoticed.mono (Nat.le_refl _) hle)

end Script

theorem Registry.ruleFor_keepsOrder {registry : Registry}
    (h : ∀ code rule, registry.find? code = some rule →
      rule ∈ builtinRules.map Prod.snd ∨ ∃ s : Script, rule = s.rule) (code : String) :
    (registry.ruleFor code).KeepsOrder m source := by
  refine ruleFor_of_tells (fun _ => Rule.TellsOfHead.keepsOrder) (fun code rule hrule => ?_) code
  refine (h code rule hrule).imp_right ?_
  rintro ⟨s, rfl⟩
  exact s.rule_keepsOrder

end Rules

/-! ## Labels -/

namespace Reader

variable {m : Marks} {source : String} {r : Reader} {lexical : List Diagnostic}

section Command

variable {rule : Rule} {marker word : Token} {rest : List Token}

/-- The rule of a command starts behind its head, with nothing noticed there. -/
theorem Reads.ordered_parse (h : r.Reads m source)
    (hahead : r.cursor.ahead = marker :: word :: rest) (hmarker : marker.kind = .marker)
    (hword : word.kind = .code) (hrule : rule.KeepsOrder m source) (hordered : r.Ordered lexical) :
    (rule.parse r).2.Ordered lexical := by
  have hoffset : r.nextOffset = marker.position.offset :=
    congrArg (·.position.offset) (Cursor.peek_of_ahead hahead)
  have hpassed := passed_command hahead hmarker hword
  have hstart : (r.passed [marker, word] rest [] []).Noticed lexical marker.position.offset
      marker.position.offset :=
    hoffset ▸ hordered.add rfl (List.forall_mem_nil _) rfl (List.forall_mem_nil _)
  have hrun := hrule lexical ⟨word.value, marker.position⟩ _ (h.advance hpassed)
    (hoffset ▸ h.nextOffset_le hpassed) hstart
  obtain ⟨ts, hts⟩ := rule.parse_advances r
  have hbehind := hoffset ▸ h.nextOffset_le hts
  rw [rule.parse_command hahead hmarker hword] at hbehind ⊢
  split
  · next hresult =>
    rw [hresult] at hrun hbehind
    exact hrun.mono hbehind (Nat.le_refl _)
  · next hresult =>
    rw [hresult] at hrun hbehind
    exact hrun.mono hbehind (Nat.le_refl _)

/-- A failure is reported at the token where the rule stopped, so behind all that the rule
has told. -/
theorem Reads.ordered_dispatch (h : r.Reads m source)
    (hahead : r.cursor.ahead = marker :: word :: rest) (hmarker : marker.kind = .marker)
    (hword : word.kind = .code) (hrule : rule.KeepsOrder m source) (hordered : r.Ordered lexical) :
    (r.dispatch rule).2.Ordered lexical := by
  have hparse := h.ordered_parse hahead hmarker hword hrule hordered
  obtain ⟨ts, hts⟩ := rule.parse_advances r
  unfold Reader.dispatch
  split
  · next hresult => rwa [hresult] at hparse
  · next e s hresult =>
    rw [hresult] at hparse hts
    obtain ⟨us, hus⟩ := s.cursor.synchronize_advances
    have hbehind := (h.advance hts).nextOffset_le (.moveTo hus)
    have hfound : e.diagnostic.position.offset = s.nextOffset :=
      congrArg (·.position.offset) (Rule.found_of_parse hresult)
    have hfailure : (s.recordError e.diagnostic).Ordered lexical :=
      hparse.add rfl (List.forall_mem_singleton.mpr hfound) (List.append_nil _).symm
        (List.forall_mem_nil _)
    exact (hfailure.mono hbehind hbehind).moveTo _

end Command

theorem Reads.ordered_commands {ruleFor : String → Rule} (h : r.Reads m source)
    (hrules : ∀ code, (ruleFor code).KeepsOrder m source) (hordered : r.Ordered lexical) :
    (r.commands ruleFor).2.Ordered lexical := by
  fun_induction Reader.commands r ruleFor with
  | case1 r hend => exact hordered
  | case2 r hend hcode ih =>
    obtain ⟨ts, hts⟩ := r.cursor.advance_advances
    have hpassed : r.Advances ts (r.moveTo r.cursor.advance.2) := .moveTo hts
    have hbehind := h.nextOffset_le hpassed
    exact ih (h.advance hpassed) ((hordered.mono hbehind hbehind).moveTo _)
  | case3 r hend code hcode first rest ih =>
    obtain ⟨marker, word, behind, hahead, hmarker, hword, -⟩ := Cursor.commandCode?_some hcode
    obtain ⟨ts, hts⟩ := r.dispatch_advances (ruleFor code)
    exact ih (h.advance hts) (h.ordered_dispatch hahead hmarker hword (hrules code) hordered)

end Reader

/-- The diagnostics of a document are listed in the order of the source, for every registry of
built-in rules and scripts. -/
theorem parse_ordered (registry : Registry) (m : Marks) (padding : Int32) (source : String)
    (h : ∀ code rule, registry.find? code = some rule →
      rule ∈ builtinRules.map Prod.snd ∨ ∃ s : Script, rule = s.rule) :
    ((Parser.mk registry m padding).parse source).InOrder (TokenStream.ofText m source).errors := by
  have hstart : (Reader.ofStream source (.ofText m source)).Ordered
      (TokenStream.ofText m source).errors :=
    ⟨⟨[], (List.append_nil _).symm, .nil _⟩, .nil _⟩
  obtain ⟨⟨own, hown, hupTo⟩, hwarnings⟩ := (Reader.reads_ofText m source).ordered_commands
    (fun code => Registry.ruleFor_keepsOrder h code) hstart
  exact ⟨TokenStream.ofText_errors_ordered m source, ⟨own, hown, hupTo.ordered⟩,
    hwarnings.ordered⟩

/-- A graphic field that warns twice, reports an error and then fails on the next marker, with a
stray character in front and an unknown command behind. -/
theorem parse_ordered_script :
    let steps : List ScriptStep :=
      [.warn "raw", .takeParameters, .error "no data", .warn "no end", .expect .content]
    let registry := Registry.builtin.insert "GF" (Script.rule ⟨steps, .generic⟩)
    let doc := (Parser.mk registry .standard 100).parse "#^GF1^FO2\n^QQ"
    (∀ code rule, registry.find? code = some rule →
      rule ∈ builtinRules.map Prod.snd ∨ ∃ s : Script, rule = s.rule) ∧
    doc.InOrder (TokenStream.ofText .standard "#^GF1^FO2\n^QQ").errors ∧
    (doc.metadata.errors.map (·.position.offset), doc.metadata.warnings.map (·.position.offset)) =
      ([0, 1, 5], [4, 5, 10]) := by
  intro steps registry doc
  have hrules : ∀ code rule, registry.find? code = some rule →
      rule ∈ builtinRules.map Prod.snd ∨ ∃ s : Script, rule = s.rule := by
    intro code rule hrule
    exact (Registry.find?_builtin_insert hrule).imp_right fun hscript => ⟨_, hscript⟩
  exact ⟨hrules, parse_ordered registry .standard 100 _ hrules, by decide +kernel⟩

end Zpl
