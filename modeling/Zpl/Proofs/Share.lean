import Zpl.Registry
import Zpl.Proofs.Phrase

/-! What the commands of a document are made of. Over the phrases of a stream the
built-in command set works without a cursor: each command has its share, a call and
the calls folded into it, and the shares follow one another through the stream. The
typed fields, the parameters and the diagnostics of a command depend on its share
alone. -/

namespace Zpl

/-- A call that another command takes along, with the line breaks before it. -/
structure Folded where
  breaks : List Token
  call : Call
  breaks_kind : ∀ t ∈ breaks, t.kind = .lineBreak

namespace Folded

def tokens (f : Folded) : List Token :=
  f.breaks ++ f.call.tokens

/-- A call with no line break before it. -/
def direct (c : Call) : Folded :=
  ⟨[], c, fun _ h => absurd h List.not_mem_nil⟩

def cons (t : Token) (h : t.kind = .lineBreak) (f : Folded) : Folded :=
  ⟨t :: f.breaks, f.call, List.forall_mem_cons.mpr ⟨h, f.breaks_kind⟩⟩

end Folded

namespace Phrase

/-- The next call, over line breaks, if it has the code. -/
def next? (code : String) : List Phrase → Option (Folded × List Phrase)
  | .lineBreak t h :: ps => (next? code ps).map fun (f, rest) => (f.cons t h, rest)
  | .call c :: ps => if c.code.value = code then some (.direct c, ps) else none
  | _ => none

theorem next?_some {code : String} {ps rest : List Phrase} {f : Folded}
    (h : next? code ps = some (f, rest)) :
    ps.flatMap tokens = f.tokens ++ rest.flatMap tokens ∧ f.call.code.value = code ∧
      rest <:+ ps := by
  fun_induction next? code ps generalizing f with
  | case1 t ht ps ih =>
    obtain ⟨⟨g, rest'⟩, hg, he⟩ := Option.map_eq_some_iff.mp h
    obtain ⟨rfl, rfl⟩ := Prod.mk.inj he
    obtain ⟨htokens, hcode, hsuffix⟩ := ih hg
    refine ⟨?_, hcode, hsuffix.trans (List.suffix_cons _ _)⟩
    rw [List.flatMap_cons, htokens]
    rfl
  | case2 c ps hcode =>
    obtain ⟨rfl, rfl⟩ := Prod.mk.inj (Option.some.inj h)
    exact ⟨rfl, hcode, List.suffix_cons _ _⟩
  | case3 => simp at h
  | case4 => simp at h

theorem next?_none {code : String} {ps : List Phrase} (h : next? code ps = none) :
    ¬Follows code (ps.flatMap tokens) := by
  rintro ⟨breaks, marker, word, more, htokens, hbreaks, hmarker, hword, hvalue⟩
  induction ps generalizing breaks with
  | nil => simp at htokens
  | cons p ps ih =>
    cases p with
    | lineBreak t ht =>
      simp only [next?, Option.map_eq_none_iff] at h
      cases breaks with
      | nil =>
        obtain ⟨rfl, -⟩ := List.cons.inj htokens
        simp [hmarker] at ht
      | cons b breaks =>
        exact ih h breaks (List.cons.inj htokens).2 fun t ht => hbreaks t (List.mem_cons_of_mem _ ht)
    | call c =>
      cases breaks with
      | nil =>
        obtain ⟨rfl, htail⟩ := List.cons.inj htokens
        obtain ⟨rfl, -⟩ := List.cons.inj htail
        simp [next?, hvalue] at h
      | cons b breaks =>
        obtain ⟨rfl, -⟩ := List.cons.inj htokens
        simpa [c.marker_kind] using hbreaks c.marker List.mem_cons_self
    | other t ht =>
      cases breaks with
      | nil =>
        obtain ⟨rfl, htail⟩ := List.cons.inj htokens
        have hhead : (ps.flatMap tokens).head? = some word := congrArg List.head? htail
        have hkind := head_kind hhead
        simp [hword] at hkind
      | cons b breaks =>
        obtain ⟨rfl, -⟩ := List.cons.inj htokens
        have := hbreaks t List.mem_cons_self
        simp [this] at ht

theorem next?_eq_none_iff {code : String} {ps : List Phrase} :
    next? code ps = none ↔ ¬Follows code (ps.flatMap tokens) := by
  constructor
  · exact next?_none
  · intro h
    cases hnext : next? code ps with
    | none => rfl
    | some found =>
      obtain ⟨field, rest⟩ := found
      obtain ⟨htokens, hcode, -⟩ := next?_some hnext
      refine absurd ⟨field.breaks, field.call.marker, field.call.code,
        field.call.operands ++ rest.flatMap tokens, ?_, field.breaks_kind, field.call.marker_kind,
        field.call.code_kind, hcode⟩ h
      rw [htokens]
      simp [Folded.tokens, Call.tokens]

end Phrase

/-! ## Folding -/

/-- The separator that closes a field before these phrases, and the phrases behind it. -/
def closing (ps : List Phrase) : List Folded × List Phrase :=
  match Phrase.next? "FS" ps with
  | some (separator, rest) => ([separator], rest)
  | none => ([], ps)

def barcodeCodes : List String :=
  ["BC", "B3", "BN"]

/-- The codes of the barcodes are known, and apart from those with a rule of their own. -/
theorem barcodeCodes_apart {code : String} (h : code ∈ barcodeCodes) :
    code ≠ "FD" ∧ code ≠ "FV" ∧ code ≠ "FS" ∧ code ∉ ["LH", "FO"] ∧
      code ∈ builtinRules.map Prod.fst :=
  (by decide : ∀ x ∈ barcodeCodes, x ≠ "FD" ∧ x ≠ "FV" ∧ x ≠ "FS" ∧ x ∉ ["LH", "FO"] ∧
    x ∈ builtinRules.map Prod.fst) code h

theorem not_mem_barcodeCodes {code : String} (h : code = "FD") : code ∉ barcodeCodes :=
  fun hcode => (barcodeCodes_apart hcode).1 h

/-- The field data before these phrases with its separator, and the phrases behind them. -/
def carried (ps : List Phrase) : List Folded × List Phrase :=
  match Phrase.next? "FD" ps with
  | some (field, rest) => (field :: (closing rest).1, (closing rest).2)
  | none => ([], ps)

/-- The calls folded into a call before these phrases, and the phrases behind them. -/
def Call.fold (c : Call) (ps : List Phrase) : List Folded × List Phrase :=
  if c.code.value = "FD" then closing ps
  else if c.code.value ∈ barcodeCodes then carried ps
  else ([], ps)

/-- The calls that a call can have folded into it. -/
inductive Call.Folds (c : Call) : List Folded → Prop where
  | plain : c.code.value ≠ "FD" → c.code.value ∉ barcodeCodes → c.Folds []
  | openField : c.code.value = "FD" → c.Folds []
  | closedField {separator} : c.code.value = "FD" → separator.call.code.value = "FS" →
      c.Folds [separator]
  | bare : c.code.value ∈ barcodeCodes → c.Folds []
  | openData {field} : c.code.value ∈ barcodeCodes → field.call.code.value = "FD" →
      c.Folds [field]
  | closedData {field separator} : c.code.value ∈ barcodeCodes → field.call.code.value = "FD" →
      separator.call.code.value = "FS" → c.Folds [field, separator]

/-- A call and the calls folded into it. -/
structure Share where
  head : Call
  folded : List Folded

theorem closing_tokens (ps : List Phrase) :
    ps.flatMap Phrase.tokens =
      (closing ps).1.flatMap Folded.tokens ++ (closing ps).2.flatMap Phrase.tokens := by
  unfold closing
  split
  · next h => simpa using (Phrase.next?_some h).1
  · rfl

theorem closing_suffix (ps : List Phrase) : (closing ps).2 <:+ ps := by
  unfold closing
  split
  · next h => exact (Phrase.next?_some h).2.2
  · exact List.suffix_rfl

theorem carried_tokens (ps : List Phrase) :
    ps.flatMap Phrase.tokens =
      (carried ps).1.flatMap Folded.tokens ++ (carried ps).2.flatMap Phrase.tokens := by
  unfold carried
  split
  · next h =>
    rw [(Phrase.next?_some h).1, closing_tokens, List.flatMap_cons, List.append_assoc]
  · rfl

theorem carried_suffix (ps : List Phrase) : (carried ps).2 <:+ ps := by
  unfold carried
  split
  · next h => exact (closing_suffix _).trans (Phrase.next?_some h).2.2
  · exact List.suffix_rfl

namespace Call

theorem fold_field {c : Call} {ps : List Phrase} (h : c.code.value = "FD") :
    c.fold ps = closing ps :=
  if_pos h

theorem fold_barcode {c : Call} {ps : List Phrase} (h : c.code.value ∈ barcodeCodes) :
    c.fold ps = carried ps := by
  rw [fold, if_neg (barcodeCodes_apart h).1, if_pos h]

theorem fold_plain {c : Call} {ps : List Phrase} (hFD : c.code.value ≠ "FD")
    (hbarcode : c.code.value ∉ barcodeCodes) : c.fold ps = ([], ps) := by
  rw [fold, if_neg hFD, if_neg hbarcode]

/-- Folding loses no token. -/
theorem fold_tokens (c : Call) (ps : List Phrase) :
    ps.flatMap Phrase.tokens =
      (c.fold ps).1.flatMap Folded.tokens ++ (c.fold ps).2.flatMap Phrase.tokens := by
  unfold fold
  split
  · exact closing_tokens ps
  split
  · exact carried_tokens ps
  · rfl

theorem folds_fold (c : Call) (ps : List Phrase) : c.Folds (c.fold ps).1 := by
  unfold fold
  split
  · next hFD =>
    unfold closing
    split
    · next h => exact .closedField hFD (Phrase.next?_some h).2.1
    · exact .openField hFD
  next hFD =>
  split
  · next hbarcode =>
    unfold carried
    split
    · next h =>
      unfold closing
      split
      · next h' => exact .closedData hbarcode (Phrase.next?_some h).2.1 (Phrase.next?_some h').2.1
      · exact .openData hbarcode (Phrase.next?_some h).2.1
    · exact .bare hbarcode
  · next hbarcode => exact .plain hFD hbarcode

theorem fold_suffix (c : Call) (ps : List Phrase) : (c.fold ps).2 <:+ ps := by
  unfold fold
  split
  · exact closing_suffix ps
  split
  · exact carried_suffix ps
  · exact List.suffix_rfl

end Call

/-- The share of a call before some phrases. -/
def Call.share (c : Call) (ps : List Phrase) : Share :=
  ⟨c, (c.fold ps).1⟩

@[simp] theorem Call.share_head (c : Call) (ps : List Phrase) : (c.share ps).head = c := rfl

def Share.tokens (s : Share) : List Token :=
  s.head.tokens ++ s.folded.flatMap Folded.tokens

/-- A share and what stands behind it are all the phrases from its call on. -/
theorem Call.share_tokens (c : Call) (ps : List Phrase) :
    (Phrase.call c :: ps).flatMap Phrase.tokens =
      (c.share ps).tokens ++ (c.fold ps).2.flatMap Phrase.tokens := by
  rw [List.flatMap_cons, c.fold_tokens ps, ← List.append_assoc]
  rfl

/-- The shares of the commands in a list of phrases. -/
def shares : List Phrase → List Share
  | [] => []
  | .call c :: ps => c.share ps :: shares (c.fold ps).2
  | _ :: ps => shares ps
termination_by ps => ps.length
decreasing_by
  · exact Nat.lt_succ_of_le (c.fold_suffix ps).length_le
  · exact Nat.lt_succ_self _

theorem shares_lineBreak (t : Token) (ht : t.kind = .lineBreak) (ps : List Phrase) :
    shares (.lineBreak t ht :: ps) = shares ps := by
  simp [shares]

theorem folds_of_mem_shares {ps : List Phrase} {s : Share} (h : s ∈ shares ps) :
    s.head.Folds s.folded := by
  fun_induction shares ps with
  | case1 => simp at h
  | case2 c ps ih =>
    rcases List.mem_cons.mp h with rfl | h
    · exact c.folds_fold ps
    · exact ih h
  | case3 p ps _ ih => exact ih h

/-- Each share is that of a call before the phrases behind it. -/
theorem split_of_mem_shares {ps : List Phrase} {s : Share} (h : s ∈ shares ps) :
    ∃ before behind, ps = before ++ .call s.head :: behind ∧ s = s.head.share behind := by
  fun_induction shares ps with
  | case1 => simp at h
  | case2 c ps ih =>
    rcases List.mem_cons.mp h with rfl | h
    · exact ⟨[], ps, rfl, rfl⟩
    · obtain ⟨before, behind, hps, hs⟩ := ih h
      obtain ⟨front, hfront⟩ := c.fold_suffix ps
      exact ⟨.call c :: (front ++ before), behind, by rw [← hfront, hps]; simp, hs⟩
  | case3 p ps _ ih =>
    obtain ⟨before, behind, hps, hs⟩ := ih h
    exact ⟨p :: before, behind, by rw [hps]; rfl, hs⟩

/-- The tokens of a share stand together in the stream. -/
theorem tokens_of_mem_shares {ps : List Phrase} {s : Share} (h : s ∈ shares ps) :
    ∃ before behind, ps.flatMap Phrase.tokens = before ++ (s.tokens ++ behind) := by
  obtain ⟨before, behind, rfl, hs⟩ := split_of_mem_shares h
  refine ⟨before.flatMap Phrase.tokens, (s.head.fold behind).2.flatMap Phrase.tokens, ?_⟩
  rw [List.flatMap_append, Call.share_tokens, ← hs]

/-! ## The command of a share -/

theorem slot_eq (ts : List Token) (i : Nat) : Rule.slot ts i = (ts.map Token.value)[i]? := by
  rw [Rule.slot, List.getElem?_map]

/-- The typed fields of a command that takes nothing along. -/
def plainKind (code : String) (ps : List Token) : CommandKind :=
  match code with
  | "XA" => .labelStart
  | "XZ" => .labelEnd
  | "LL" => .labelLength (Parameter.intOr (Rule.slot ps 0) 100)
  | "LH" => .labelHome (Parameter.intOr (Rule.slot ps 0) 0) (Parameter.intOr (Rule.slot ps 1) 0)
  | "FO" => .fieldOrigin (Parameter.intOr (Rule.slot ps 0) 0) (Parameter.intOr (Rule.slot ps 1) 0)
  | "GB" =>
    .graphicBox (Parameter.intOr (Rule.slot ps 0) 1) (Parameter.intOr (Rule.slot ps 1) 1)
      (Parameter.intOr (Rule.slot ps 2) 1) (Parameter.lineColorOr (Rule.slot ps 3))
      ((Rule.slot ps 4).bind Parameter.int?)
  | "A" =>
    .font (Rule.splitFont (Rule.slot ps 0)).1 (Rule.splitFont (Rule.slot ps 0)).2
      (Parameter.intOr (Rule.slot ps 1) 10)
      ((Rule.slot ps 2).map fun width =>
        Parameter.intOr (some width) (Parameter.intOr (Rule.slot ps 1) 10))
  | _ => .generic

namespace Share

/-- The operands of the folded calls with a code. -/
def foldedOperands (s : Share) (code : String) : List Token :=
  (s.folded.filter fun f => f.call.code.value == code).flatMap fun f => f.call.operands

/-- The parameters of a separator stand behind those of the command. -/
def parameters (s : Share) : List Token :=
  s.head.operands ++ s.foldedOperands "FS"

/-- The content of the field data that was folded in. -/
def content (s : Share) : Option Token :=
  (s.foldedOperands "FD").head?

def kind (s : Share) : CommandKind :=
  let ps := s.head.operands
  if s.head.code.value = "FD" then .fieldData (Rule.contentValue ps.head?) (!s.folded.isEmpty)
  else if s.head.code.value ∈ barcodeCodes then
    .barcode (Parameter.orientationOr (Rule.slot ps 0)) (Parameter.intOr (Rule.slot ps 1) 10)
      (Parameter.boolOr (Rule.slot ps 2) true) (Parameter.boolOr (Rule.slot ps 3) false)
      (Rule.slot ps 4) (Rule.contentValue s.content)
  else plainKind s.head.code.value ps

section Kind

variable {s : Share}

theorem kind_field (h : s.head.code.value = "FD") :
    s.kind = .fieldData (Rule.contentValue s.head.operands.head?) (!s.folded.isEmpty) :=
  if_pos h

theorem kind_barcode (h : s.head.code.value ∈ barcodeCodes) :
    s.kind = .barcode (Parameter.orientationOr (Rule.slot s.head.operands 0))
      (Parameter.intOr (Rule.slot s.head.operands 1) 10)
      (Parameter.boolOr (Rule.slot s.head.operands 2) true)
      (Parameter.boolOr (Rule.slot s.head.operands 3) false) (Rule.slot s.head.operands 4)
      (Rule.contentValue s.content) := by
  rw [kind, if_neg (barcodeCodes_apart h).1, if_pos h]

theorem kind_plain (hFD : s.head.code.value ≠ "FD") (hbarcode : s.head.code.value ∉ barcodeCodes) :
    s.kind = plainKind s.head.code.value s.head.operands := by
  rw [kind, if_neg hFD, if_neg hbarcode]

end Kind

def place (s : Share) : Head :=
  ⟨s.head.code.value, s.head.marker.position⟩

def errors (s : Share) : List Diagnostic :=
  if s.head.code.value ∈ ["LH", "FO"] then Rule.coordinateErrors s.place s.head.operands else []

def warnings (s : Share) : List Diagnostic :=
  if s.head.code.value = "FS" then [(Problem.orphanedSeparator "FS").diagnose s.place.position]
  else if s.head.code.value ∈ builtinRules.map Prod.fst then []
  else [(Problem.unsupportedCommand s.place.code (Registry.builtin.nearest? s.place.code)).diagnose
    s.place.position]

/-- A known code that is no pair of coordinates and no separator gives nothing to report. -/
theorem no_reports (s : Share) (hpair : s.head.code.value ∉ ["LH", "FO"])
    (hFS : s.head.code.value ≠ "FS") (hknown : s.head.code.value ∈ builtinRules.map Prod.fst) :
    s.errors = [] ∧ s.warnings = [] := by
  rw [errors, warnings, if_neg hpair, if_neg hFS, if_pos hknown]
  exact ⟨rfl, rfl⟩

theorem errors_position {s : Share} {d : Diagnostic} (h : d ∈ s.errors) :
    d.position = s.place.position := by
  unfold errors Rule.coordinateErrors at h
  split at h
  · split at h
    · simp at h
    · rw [List.mem_singleton.mp h]
      rfl
  · simp at h

theorem warnings_position {s : Share} {d : Diagnostic} (h : d ∈ s.warnings) :
    d.position = s.place.position := by
  unfold warnings at h
  split at h
  · rw [List.mem_singleton.mp h]
    rfl
  split at h
  · simp at h
  · rw [List.mem_singleton.mp h]
    rfl

/-- The byte offset behind the last token of a share. -/
def stop (s : Share) : Nat :=
  (s.tokens.getLast?.map Token.stop).getD 0

def command (source : List Char) (s : Share) : Command :=
  { code := s.head.code.value
    rawText := .ofList
      ((Text.slice? source s.place.position.offset (max s.stop s.place.position.offset)).getD [])
    position := s.place.position
    parameters := s.parameters.map Token.value
    kind := s.kind }

end Share

end Zpl
