import Zpl.Grammar.Script
import Zpl.Registry

/-! What grammar programs record. `Tells okError okWarning` looks at a program alone: whatever
the tokens are, it records accepted errors and warnings only, and a run adds only such to
those of the reader (`Tells.run`). The built-in rules tell of nothing but their own head
(`builtin_tells`); scripts have their errors there, too. -/

namespace Zpl

namespace Grammar

variable {α β : Type} {okError okWarning : Diagnostic → Prop}

/-- The program records accepted errors and accepted warnings only. -/
def Tells (okError okWarning : Diagnostic → Prop) : Grammar α → Prop
  | done _ => True
  | peek next => ∀ t, (next t).Tells okError okWarning
  | advance next => ∀ t, (next t).Tells okError okWarning
  | expect _ next => ∀ t, (next t).Tells okError okWarning
  | takeWhile _ next => ∀ ts, (next ts).Tells okError okWarning
  | eatCommand _ next => ∀ head, (next head).Tells okError okWarning
  | error d next => okError d ∧ next.Tells okError okWarning
  | warn d next => okWarning d ∧ next.Tells okError okWarning

theorem Tells.mono {okError' okWarning' : Diagnostic → Prop} {g : Grammar α}
    (h : g.Tells okError okWarning) (herror : ∀ d, okError d → okError' d)
    (hwarning : ∀ d, okWarning d → okWarning' d) : g.Tells okError' okWarning' := by
  induction g with
  | done result => trivial
  | peek next ih => exact fun t => ih t (h t)
  | advance next ih => exact fun t => ih t (h t)
  | expect kind next ih => exact fun t => ih t (h t)
  | takeWhile accepts next ih => exact fun ts => ih ts (h ts)
  | eatCommand code next ih => exact fun head => ih head (h head)
  | error d next ih => exact ⟨herror d h.1, ih h.2⟩
  | warn d next ih => exact ⟨hwarning d h.1, ih h.2⟩

theorem Tells.bind {g : Grammar α} {f : α → Grammar β} (hg : g.Tells okError okWarning)
    (hf : ∀ a, (f a).Tells okError okWarning) : (g.bind f).Tells okError okWarning := by
  induction g with
  | done result => exact hf result
  | peek next ih => exact fun t => ih t (hg t)
  | advance next ih => exact fun t => ih t (hg t)
  | expect kind next ih => exact fun t => ih t (hg t)
  | takeWhile accepts next ih => exact fun ts => ih ts (hg ts)
  | eatCommand code next ih => exact fun head => ih head (hg head)
  | error d next ih => exact ⟨hg.1, ih hg.2⟩
  | warn d next ih => exact ⟨hg.1, ih hg.2⟩

/-- What a run adds to the diagnostics is accepted, whether it succeeds or fails. -/
theorem Tells.run {g : Grammar α} (h : g.Tells okError okWarning) (r : Reader) :
    ∃ errors warnings, (g.run r).2.errors = r.errors ++ errors ∧ (∀ d ∈ errors, okError d) ∧
      (g.run r).2.warnings = r.warnings ++ warnings ∧ ∀ d ∈ warnings, okWarning d := by
  have hnone : ∀ s : Reader, ∃ errors warnings, s.errors = s.errors ++ errors ∧
      (∀ d ∈ errors, okError d) ∧ s.warnings = s.warnings ++ warnings ∧
        ∀ d ∈ warnings, okWarning d :=
    fun s => ⟨[], [], (List.append_nil _).symm, List.forall_mem_nil _, (List.append_nil _).symm,
      List.forall_mem_nil _⟩
  induction g generalizing r with
  | done result => exact hnone r
  | peek next ih => exact ih _ (h _) r
  | advance next ih => exact ih _ (h _) (r.moveTo _)
  | expect kind next ih =>
    simp only [Grammar.run]
    split
    · exact hnone r
    · exact ih _ (h _) (r.moveTo _)
  | takeWhile accepts next ih => exact ih _ (h _) (r.moveTo _)
  | eatCommand code next ih =>
    simp only [Grammar.run]
    split
    · exact ih _ (h _) r
    · exact ih _ (h _) (r.moveTo _)
  | error d next ih =>
    obtain ⟨errors, warnings, herrors, hok, hrest⟩ := ih h.2 (r.recordError d)
    refine ⟨d :: errors, warnings, ?_, List.forall_mem_cons.mpr ⟨h.1, hok⟩, hrest⟩
    rw [Grammar.run, herrors, Reader.recordError, List.append_assoc]
    rfl
  | warn d next ih =>
    obtain ⟨errors, warnings, herrors, hok, hwarnings, hrest⟩ := ih h.2 (r.recordWarning d)
    refine ⟨errors, d :: warnings, herrors, hok, ?_, List.forall_mem_cons.mpr ⟨h.1, hrest⟩⟩
    rw [Grammar.run, hwarnings, Reader.recordWarning, List.append_assoc]
    rfl

theorem eat_tells (kind : TokenKind) : (eat kind).Tells okError okWarning := by
  intro t
  show (if t.kind = kind then _ else _ : Grammar (Option Token)).Tells okError okWarning
  split
  · exact fun _ => trivial
  · trivial

theorem report_tells {problem : Problem} {p : Position}
    (herror : problem.severity = .error → okError (problem.diagnose p))
    (hwarning : problem.severity ≠ .error → okWarning (problem.diagnose p)) :
    (report problem p).Tells okError okWarning := by
  unfold report
  split
  · next hseverity => exact ⟨herror hseverity, trivial⟩
  · next hseverity => exact ⟨hwarning hseverity, trivial⟩

end Grammar

/-- An error with a code, at a head. -/
def Head.Blamed (head : Head) (code : String) (d : Diagnostic) : Prop :=
  d.code = code ∧ d.position = head.position

namespace Rule

open Grammar

/-! ## Built-in rules -/

/-- The program tells of its head only: that coordinates are missing, or a warning. -/
def TellsOfHead {α : Type} (head : Head) (g : Grammar α) : Prop :=
  g.Tells (head.Blamed "ZPL0102") (·.position = head.position)

section Builtin

variable (head : Head)

theorem simple_tells (read : List Token → CommandKind) : TellsOfHead head (simple read head) :=
  fun _ => trivial

theorem coordinates_tells (make : Int32 → Int32 → CommandKind) :
    TellsOfHead head (coordinates make head) := by
  have htake : TellsOfHead head takeParameters := fun _ => trivial
  refine htake.bind fun parameters => ?_
  have hreport : TellsOfHead head (report (.missingCoordinates head.code parameters.length
      (missingCoordinates parameters)) head.position) :=
    report_tells (fun _ => ⟨rfl, rfl⟩) fun _ => rfl
  by_cases hmissing : (missingCoordinates parameters).isEmpty
  · simp only [hmissing]
    trivial
  · simp only [hmissing]
    exact hreport.bind fun _ => trivial

theorem fieldContent_tells : TellsOfHead head fieldContent := by
  refine (eat_tells .content).bind fun content => ?_
  cases content with
  | none => exact eat_tells .parameter
  | some t => trivial

theorem closingSeparator_tells : TellsOfHead head closingSeparator := by
  intro separator
  cases separator with
  | none => trivial
  | some separator => exact fun _ => trivial

theorem fieldData_tells : TellsOfHead head (fieldData head) :=
  (fieldContent_tells head).bind fun _ => (closingSeparator_tells head).bind fun _ => trivial

theorem barcodeData_tells : TellsOfHead head barcodeData := by
  intro field
  cases field with
  | none => trivial
  | some field =>
    refine (fieldContent_tells head).bind fun _ => ?_
    exact (closingSeparator_tells head).bind fun _ => trivial

theorem barcode_tells : TellsOfHead head (barcode head) :=
  fun _ => (barcodeData_tells head).bind fun _ => trivial

theorem fieldSeparator_tells : TellsOfHead head (fieldSeparator head) := by
  intro parameters
  have hreport : TellsOfHead head (report (.orphanedSeparator head.code) head.position) :=
    report_tells nofun fun _ => rfl
  exact hreport.bind fun _ => trivial

theorem unsupported_tells (nearest : String → Option String) :
    TellsOfHead head (unsupported nearest head) := by
  intro operands
  have hreport : TellsOfHead head
      (report (.unsupportedCommand head.code (nearest head.code)) head.position) :=
    report_tells nofun fun _ => rfl
  exact hreport.bind fun _ => trivial

theorem builtin_tells : ∀ rule ∈ builtinRules.map Prod.snd, TellsOfHead head (rule head) := by
  simp only [builtinRules, List.map_cons, List.map_nil, List.forall_mem_cons]
  exact ⟨simple_tells head _, simple_tells head _, simple_tells head _, coordinates_tells head _,
    coordinates_tells head _, simple_tells head _, fieldData_tells head, fieldSeparator_tells head,
    barcode_tells head, barcode_tells head, barcode_tells head, simple_tells head _,
    List.forall_mem_nil _⟩

end Builtin

theorem beginCommand_tells {okError okWarning : Diagnostic → Prop} :
    beginCommand.Tells okError okWarning :=
  fun _ _ => trivial

end Rule

/-! ## Registries -/

namespace Registry

/-- What holds of the rules that tell of their head only, and of the registered ones besides,
holds of the rule for every code. -/
theorem ruleFor_of_tells {P : Rule → Prop} {registry : Registry}
    (htells : ∀ rule, (∀ head, Rule.TellsOfHead head (rule head)) → P rule)
    (h : ∀ code rule, registry.find? code = some rule →
      rule ∈ builtinRules.map Prod.snd ∨ P rule) (code : String) :
    P (registry.ruleFor code) := by
  unfold ruleFor
  cases hrule : registry.find? code with
  | none => exact htells _ fun head => Rule.unsupported_tells head _
  | some rule =>
    rcases h code rule hrule with hbuiltin | hown
    · exact htells rule fun head => Rule.builtin_tells head rule hbuiltin
    · exact hown

/-- One more rule beside the built-in ones. -/
theorem find?_builtin_insert {code other : String} {rule found : Rule}
    (h : (builtin.insert code rule).find? other = some found) :
    found ∈ builtinRules.map Prod.snd ∨ found = rule := by
  rw [KeyMap.find?_insert] at h
  split at h
  · exact .inr (Option.some.inj h).symm
  · exact .inl (List.mem_map_of_mem (KeyMap.mem_of_find?_ofList h))

end Registry

/-! ## Scripts -/

namespace Script

/-- A step reports errors at the head, and warns only if it is there to warn. -/
theorem perform_tells (head : Head) (step : ScriptStep) :
    (perform head step).Tells (head.Blamed "X0001") fun _ => ∃ message, step = .warn message := by
  cases step with
  | expect kind => exact fun _ => trivial
  | eat kind => exact (Grammar.eat_tells kind).bind fun _ => trivial
  | advance => exact fun _ => trivial
  | takeParameters => exact fun _ => trivial
  | eatCommand code => exact fun _ => trivial
  | beginCommand => exact fun _ _ => trivial
  | error message => exact ⟨⟨rfl, rfl⟩, trivial⟩
  | warn message => exact fun _ => ⟨⟨message, rfl⟩, trivial⟩

theorem performAll_tells (head : Head) (steps : List ScriptStep) :
    (performAll head steps).Tells (head.Blamed "X0001") fun _ => True := by
  induction steps with
  | nil => trivial
  | cons step steps ih =>
    have hstep := (perform_tells head step).mono (fun _ hd => hd) fun _ _ => trivial
    exact hstep.bind fun _ => ih.bind fun _ => trivial

theorem rule_tells (s : Script) (head : Head) :
    (s.rule head).Tells (head.Blamed "X0001") fun _ => True :=
  (performAll_tells head s.steps).bind fun _ => trivial

end Script

end Zpl
