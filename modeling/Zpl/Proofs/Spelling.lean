import Zpl.Proofs.LabelSize
import Zpl.Proofs.Reading
import Zpl.Proofs.Word

/-! The spelling of typed fields. A list of command kinds is written one to a line, each
as its calls; the text is read as items, calls with their values and line breaks, and
the shares of these are the kinds again (`parse_spelling`). -/

namespace Zpl

/-! ## Spelling -/

/-- A text that a field can hold: it stays on the line and no blank ends it. -/
def IsFieldText (cs : List Char) : Prop :=
  (∀ c ∈ cs, c ≠ '^' ∧ Text.isLineBreak c = false) ∧ cs.getLast?.all (!Text.isBlank ·)

namespace CommandKind

/-- The code that a kind is written with. -/
def code : CommandKind → String
  | labelStart => "XA"
  | labelEnd => "XZ"
  | labelLength .. => "LL"
  | labelHome .. => "LH"
  | fieldOrigin .. => "FO"
  | graphicBox .. => "GB"
  | fieldData .. => "FD"
  | barcode .. => "BC"
  | font .. => "A"
  | generic => ""

/-- The parameters that a kind is written with; a font has its name and its
orientation in one. -/
def words : CommandKind → List (List Char)
  | labelLength n => [Write.integer n]
  | labelHome x y | fieldOrigin x y => [Write.integer x, Write.integer y]
  | graphicBox width height thickness color rounding =>
    [Write.integer width, Write.integer height, Write.integer thickness, color.letter.toList] ++
      (rounding.map Write.integer).toList
  | barcode orientation height readable above mode _ =>
    [orientation.letter.toList, Write.integer height, Write.flag readable, Write.flag above] ++
      (mode.map String.toList).toList
  | font name orientation height width =>
    [name.toList ++ orientation.letter.toList, Write.integer height] ++
      (width.map Write.integer).toList
  | _ => []

/-- The calls that a kind is written as: codes with the text behind them. -/
def calls (kind : CommandKind) : List (String × List Char) :=
  match kind with
  | fieldData content closed => ("FD", content.toList) :: if closed then [("FS", [])] else []
  | barcode _ _ _ _ _ data =>
    [(kind.code, Write.line kind.words), ("FD", data.toList), ("FS", [])]
  | generic => []
  | _ => [(kind.code, Write.line kind.words)]

def spell (kind : CommandKind) : List Char :=
  kind.calls.flatMap fun (code, line) => '^' :: (code.toList ++ line)

/-- The kinds that have a spelling. -/
def Spellable : CommandKind → Prop
  | fieldData content _ => IsFieldText content.toList
  | barcode _ _ _ _ mode data => (∀ text ∈ mode, IsWord text.toList) ∧ IsFieldText data.toList
  | font name _ _ _ => name.toList.length = 1 ∧ name ≠ "@" ∧ IsWord name.toList
  | generic => False
  | _ => True

end CommandKind

/-- The text of a list of kinds, one to a line. -/
def spelling (kinds : List CommandKind) : List Char :=
  kinds.flatMap fun kind => kind.spell ++ ['\n']

/-! ## Items -/

/-- What is written in a text: calls with the values of their operands, and line breaks. -/
inductive Item where
  | call (code : String) (values : List String)
  | lineBreak
  | other

def Phrase.item : Phrase → Item
  | .call c => .call c.code.value (c.operands.map Token.value)
  | .lineBreak _ _ => .lineBreak
  | .other _ _ => .other

/-- The values that a call has when it is written with this text behind the code. -/
def Write.values (code : String) (line : List Char) : List String :=
  ((Lexeme.operands .standard code.toList line).filterMap Lexeme.view?).map Prod.snd

/-- The text is made of the lexemes `xs` without a fault, and is read as the items. -/
structure Reads (cs : List Char) (xs : List Lexeme) (items : List Item) : Prop where
  scan : Lexeme.Scan .standard cs xs
  ends : Lexeme.EndsOperands .standard cs
  sound : ∀ x ∈ xs, ∀ next, x.problem? next = none
  phrases : ∀ p next, ∃ ps : List Phrase,
    (Lexeme.place p next xs).filterMap Placed.token? = ps.flatMap Phrase.tokens ∧
      ps.map Phrase.item = items

/-- A code and the text behind it are a call in front of every end of a line. -/
structure Callable (code : String) (line : List Char) : Prop where
  code : ∀ tail, Lexeme.EndsOperands .standard tail → Lexeme.CodeBefore code.toList (line ++ tail)
  line : ∀ c ∈ line, Lexeme.isOperandChar .standard c

namespace Reads

theorem nil : Reads [] [] [] :=
  ⟨.nil, by simp [Lexeme.EndsOperands], by simp, fun _ _ => ⟨[], rfl, rfl⟩⟩

theorem lineBreak {cs : List Char} {xs : List Lexeme} {items : List Item} (h : Reads cs xs items) :
    Reads ('\n' :: cs) (⟨.lineBreak, ['\n']⟩ :: xs) (.lineBreak :: items) where
  scan := .trivia (by decide) rfl h.scan
  ends := by
    intro c hc
    obtain rfl : '\n' = c := Option.some.inj hc
    rfl
  sound := List.forall_mem_cons.mpr ⟨fun _ => rfl, h.sound⟩
  phrases := by
    intro p next
    obtain ⟨ps, htokens, hitems⟩ := h.phrases
      (p.after ['\n'] ((Lexeme.flatten xs).head?.or next)) next
    refine ⟨.lineBreak ⟨.lineBreak, .ofList ['\n'], p, .ofList ['\n']⟩ rfl :: ps, ?_, ?_⟩
    · rw [Lexeme.tokens_place_cons, htokens]
      rfl
    · rw [List.map_cons, hitems]
      rfl

theorem call {code : String} {line cs : List Char} {xs : List Lexeme} {items : List Item}
    (hcall : Callable code line) (h : Reads cs xs items) :
    Reads ('^' :: (code.toList ++ (line ++ cs)))
      (⟨.marker, ['^']⟩ :: ⟨.code, code.toList⟩ :: (Lexeme.operands .standard code.toList line ++ xs))
      (.call code (Write.values code line) :: items) where
  scan := .command ⟨hcall.code cs h.ends, hcall.line, h.ends⟩ h.scan
  ends := by
    intro c hc
    obtain rfl : '^' = c := Option.some.inj hc
    rfl
  sound := by
    refine List.forall_mem_cons.mpr ⟨fun _ => rfl, List.forall_mem_cons.mpr ⟨fun _ => rfl, ?_⟩⟩
    intro x hx next
    rcases List.mem_append.mp hx with hx | hx
    · exact Lexeme.problem?_operands hx next
    · exact h.sound x hx next
  phrases := by
    intro p next
    obtain ⟨c, q, hcode, hview, htokens⟩ :=
      Lexeme.exists_call (m := .standard) code.toList line p next xs
    obtain ⟨ps, hps, hitems⟩ := h.phrases q next
    refine ⟨.call c :: ps, by rw [List.flatMap_cons, ← hps]; exact htokens, ?_⟩
    have hvalues : c.operands.map Token.value = Write.values code line := by
      rw [Write.values, ← hview, List.map_map]
      rfl
    rw [List.map_cons, hitems, Phrase.item, hcode, hvalues, String.ofList_toList]

/-- A text without a fault has no lexical errors. -/
theorem errors {cs : List Char} {xs : List Lexeme} {items : List Item} (h : Reads cs xs items) :
    (TokenStream.ofText .standard (.ofList cs)).errors = [] := by
  rw [TokenStream.ofText_errors, String.toList_ofList, h.scan.eq, List.filterMap_eq_nil_iff]
  intro x hx
  obtain ⟨front, back, hxs, -, -⟩ := Lexeme.mem_place hx
  rw [Placed.report?, h.sound x.lexeme (by simp [hxs])]
  rfl

/-- Calls one behind the other. -/
theorem calls {calls : List (String × List Char)} (hcalls : ∀ call ∈ calls, Callable call.1 call.2)
    {cs : List Char} {xs : List Lexeme} {items : List Item} (h : Reads cs xs items) :
    ∃ ys, Reads ((calls.flatMap fun (code, line) => '^' :: (code.toList ++ line)) ++ cs) ys
      ((calls.map fun (code, line) => .call code (Write.values code line)) ++ items) := by
  induction calls with
  | nil => exact ⟨xs, h⟩
  | cons first calls ih =>
    obtain ⟨hfirst, hcalls⟩ := List.forall_mem_cons.mp hcalls
    obtain ⟨ys, hys⟩ := ih hcalls
    have hcall := hys.call hfirst
    simp only [List.flatMap_cons, List.map_cons, List.cons_append, List.append_assoc]
    exact ⟨_, hcall⟩

end Reads

/-! ## Calls as they are written -/

/-- The codes of two characters. -/
def pairCodes : List String :=
  ["XA", "XZ", "LL", "LH", "FO", "GB", "BC", "FD", "FS"]

theorem codeBefore_pair {code : String} (h : code ∈ pairCodes) (tail : List Char) :
    Lexeme.CodeBefore code.toList tail := by
  simp only [pairCodes, List.mem_cons, List.not_mem_nil, or_false] at h
  rcases h with rfl | rfl | rfl | rfl | rfl | rfl | rfl | rfl | rfl <;> exact ⟨by decide, rfl⟩

theorem callable_words {code : String} {words : List (List Char)} (hcode : code ∈ pairCodes)
    (h : ∀ w ∈ words, IsWord w) : Callable code (Write.line words) :=
  ⟨fun _ _ => codeBefore_pair hcode _, isOperandChar_line h⟩

theorem callable_text {text : List Char} (h : IsFieldText text) : Callable "FD" text := by
  refine ⟨fun _ _ => codeBefore_pair (by decide) _, fun c hc => ?_⟩
  exact Lexeme.isOperandChar_iff.mpr (h.1 c hc)

/-- The font name follows the code directly, and may not extend it. -/
theorem callable_font {c : Char} {rest : List Char} {words : List (List Char)} (hc : c ≠ '@')
    (h : ∀ w ∈ (c :: rest) :: words, IsWord w) :
    Callable "A" (Write.line ((c :: rest) :: words)) := by
  refine ⟨fun tail _ => ⟨by decide, ?_⟩, isOperandChar_line h⟩
  have hline : ∃ more, Write.line ((c :: rest) :: words) ++ tail = c :: more := by
    cases words with
    | nil => exact ⟨_, rfl⟩
    | cons w words => exact ⟨_, by rw [Write.line_cons_cons]; rfl⟩
  obtain ⟨more, hmore⟩ := hline
  rw [hmore]
  show Lexeme.codeLength ('A' :: c :: more) = 1
  rw [Lexeme.codeLength_cons, if_pos (by decide), if_neg (by simpa [Lexeme.joins] using hc)]

theorem values_words {code : String} {words : List (List Char)} (hcode : code ≠ "FD" ∧ code ≠ "FV")
    (h : ∀ w ∈ words, IsWord w) : Write.values code (Write.line words) = words.map String.ofList := by
  have htakes : ¬Lexeme.takesContent code.toList := by
    rw [Lexeme.takesContent_iff, String.ofList_toList]
    exact not_or.mpr hcode
  rw [Write.values, Lexeme.operands, if_neg htakes, view?_line h, List.map_map]
  rfl

theorem values_text {text : List Char} (h : IsFieldText text) :
    Write.values "FD" text = if text.isEmpty then [] else [.ofList text] := by
  have htrim : Text.trimEnd text = text := by
    refine Text.trimEnd_of_getLast? fun c hc => ?_
    have hlast := h.2
    rw [hc] at hlast
    simpa using hlast
  rw [Write.values, Lexeme.operands, if_pos (by decide), Lexeme.view?_fieldContent, htrim]
  split <;> rfl

theorem CommandKind.words_isWord {kind : CommandKind} (h : kind.Spellable) :
    ∀ w ∈ kind.words, IsWord w := by
  cases kind with
  | labelLength n => simp [words, isWord_integer]
  | labelHome x y => simp [words, isWord_integer]
  | fieldOrigin x y => simp [words, isWord_integer]
  | graphicBox width height thickness color rounding =>
    cases rounding <;> simp [words, isWord_integer, color.isWord_letter]
  | barcode orientation height readable above mode data =>
    have hmode := h.1
    cases mode <;>
      simp_all [words, isWord_integer, isWord_flag, orientation.isWord_letter]
  | font name orientation height width =>
    have hfont : IsWord (name.toList ++ orientation.letter.toList) := by
      refine ⟨by simp [h.2.2.1], fun c hc => ?_⟩
      rcases List.mem_append.mp hc with hc | hc
      · exact h.2.2.2 c hc
      · exact orientation.isWord_letter.2 c hc
    cases width <;> simp [words, isWord_integer, hfont]
  | _ => simp [words]

theorem CommandKind.callable {kind : CommandKind} (h : kind.Spellable) :
    ∀ call ∈ kind.calls, Callable call.1 call.2 := by
  have hseparator : Callable "FS" (Write.line []) := callable_words (by decide) (by simp)
  have hwords := words_isWord h
  have hpair : kind.code ∈ pairCodes → Callable kind.code (Write.line kind.words) :=
    fun hcode => callable_words hcode hwords
  cases kind with
  | fieldData content closed =>
    refine List.forall_mem_cons.mpr ⟨callable_text h, ?_⟩
    cases closed with
    | false => simp
    | true => exact List.forall_mem_singleton.mpr hseparator
  | barcode orientation height readable above mode data =>
    refine List.forall_mem_cons.mpr ⟨hpair (by simp [code, pairCodes]), ?_⟩
    exact List.forall_mem_cons.mpr ⟨callable_text h.2, List.forall_mem_singleton.mpr hseparator⟩
  | font name orientation height width =>
    obtain ⟨c, hc⟩ := List.length_eq_one_iff.mp h.1
    have hat : c ≠ '@' := by
      rintro rfl
      exact h.2.1 (String.toList_inj.mp hc)
    have hline : (font name orientation height width).words =
        (c :: orientation.letter.toList) :: (Write.integer height :: (width.map Write.integer).toList) := by
      rw [words, hc]
      rfl
    rw [hline] at hwords
    refine List.forall_mem_singleton.mpr ?_
    show Callable "A" (Write.line (font name orientation height width).words)
    rw [hline]
    exact callable_font hat hwords
  | generic => exact h.elim
  | _ => exact List.forall_mem_singleton.mpr (hpair (by simp [code, pairCodes]))

/-! ## Shares of items -/

section Shares

variable {ps : List Phrase} {items : List Item}

theorem exists_call_of_item {code : String} {values : List String}
    (h : ps.map Phrase.item = .call code values :: items) :
    ∃ c qs, ps = .call c :: qs ∧ c.code.value = code ∧ c.operands.map Token.value = values ∧
      qs.map Phrase.item = items := by
  obtain ⟨p, qs, rfl, hp, hqs⟩ := List.map_eq_cons_iff.mp h
  cases p with
  | call c =>
    obtain ⟨hcode, hvalues⟩ := Item.call.inj hp
    exact ⟨c, qs, rfl, hcode, hvalues, hqs⟩
  | lineBreak t ht => cases hp
  | other t ht => cases hp

theorem exists_lineBreak_of_item (h : ps.map Phrase.item = .lineBreak :: items) :
    ∃ t ht qs, ps = .lineBreak t ht :: qs ∧ qs.map Phrase.item = items := by
  obtain ⟨p, qs, rfl, hp, hqs⟩ := List.map_eq_cons_iff.mp h
  cases p with
  | call c => cases hp
  | lineBreak t ht => exact ⟨t, ht, qs, rfl, hqs⟩
  | other t ht => cases hp

end Shares

/-- The command of a share has the kind, and nothing is reported of it. -/
structure Share.Means (s : Share) (kind : CommandKind) : Prop where
  kind : s.kind = kind
  errors : s.errors = []
  warnings : s.warnings = []

namespace CommandKind

/-- The items that a kind is written as. -/
def items (kind : CommandKind) : List Item :=
  kind.calls.map fun (code, line) => .call code (Write.values code line)

/-- A kind that is one call of parameters. -/
def IsPlain (kind : CommandKind) : Prop :=
  kind.code ≠ "FD" ∧ kind.code ≠ "BC" ∧ kind.code ≠ ""

theorem IsPlain.not_barcode {kind : CommandKind} (h : kind.IsPlain) : kind.code ∉ barcodeCodes := by
  have hBC := h.2.1
  cases kind <;> simp_all [code, barcodeCodes]

theorem plainKind_words {kind : CommandKind} {ts : List Token} (h : kind.Spellable)
    (hplain : kind.IsPlain) (hts : ts.map Token.value = kind.words.map String.ofList) :
    plainKind kind.code ts = kind := by
  have hslot : ∀ i, Rule.slot ts i = (kind.words.map String.ofList)[i]? := by
    intro i
    rw [slot_eq, hts]
  cases kind with
  | labelStart => rfl
  | labelEnd => rfl
  | labelLength n => simp [plainKind, code, hslot, words, intOr_integer]
  | labelHome x y => simp [plainKind, code, hslot, words, intOr_integer]
  | fieldOrigin x y => simp [plainKind, code, hslot, words, intOr_integer]
  | graphicBox width height thickness color rounding =>
    cases rounding <;>
      simp [plainKind, code, hslot, words, intOr_integer, lineColorOr_letter, int?_integer]
  | font name orientation height width =>
    obtain ⟨c, hc⟩ := List.length_eq_one_iff.mp h.1
    have hname : name = .singleton c := String.toList_inj.mp (by simp [hc])
    cases width <;>
      simp [plainKind, code, hslot, words, intOr_integer, splitFont_name, hname]
  | fieldData content closed => exact absurd rfl hplain.1
  | barcode orientation height readable above mode data => exact absurd rfl hplain.2.1
  | generic => exact absurd rfl hplain.2.2

theorem means_plain {kind : CommandKind} {c : Call} (h : kind.Spellable) (hplain : kind.IsPlain)
    (hcode : c.code.value = kind.code)
    (hvalues : c.operands.map Token.value = kind.words.map String.ofList) :
    Share.Means ⟨c, []⟩ kind := by
  have hFD : c.code.value ≠ "FD" := hcode ▸ hplain.1
  have hbarcode : c.code.value ∉ barcodeCodes := hcode ▸ hplain.not_barcode
  have hFS : c.code.value ≠ "FS" := by
    rw [hcode]
    cases kind <;> simp [code]
  have hknown : c.code.value ∈ builtinRules.map Prod.fst := by
    rw [hcode]
    have hgeneric := hplain.2.2
    cases kind <;> simp_all [code, builtinRules]
  refine ⟨?_, ?_, ?_⟩
  · rw [Share.kind_plain hFD hbarcode]
    show plainKind c.code.value c.operands = kind
    rw [hcode]
    exact plainKind_words h hplain hvalues
  · by_cases hpair : c.code.value ∈ ["LH", "FO"]
    · have hlength : c.operands.length = 2 := by
        have hwords : c.operands.length = kind.words.length := by
          simpa using congrArg List.length hvalues
        rw [hwords]
        rw [hcode] at hpair
        cases kind <;> simp_all [code, words]
      rw [Share.errors, if_pos hpair, Rule.coordinateErrors, Rule.missingCoordinates, hlength]
      rfl
    · exact (Share.no_reports _ hpair hFS hknown).1
  · rw [Share.warnings, if_neg hFS, if_pos hknown]

/-- The content that field data with a spelling have. -/
theorem contentValue_text {text : String} (h : IsFieldText text.toList) {ts : List Token}
    (hts : ts.map Token.value = Write.values "FD" text.toList) :
    Rule.contentValue ts.head? = text := by
  have hvalue : Rule.contentValue ts.head? = (ts.map Token.value).head?.getD "" := by
    rw [Rule.contentValue, List.head?_map]
  rw [hvalue, hts, values_text h]
  split
  · next hempty =>
    have htext : text = "" := String.toList_inj.mp (List.isEmpty_iff.mp hempty)
    rw [htext]
    rfl
  · simp

theorem means_field {content : String} {c : Call} (h : IsFieldText content.toList)
    (hcode : c.code.value = "FD")
    (hvalues : c.operands.map Token.value = Write.values "FD" content.toList) (fs : List Folded) :
    Share.Means ⟨c, fs⟩ (fieldData content (!fs.isEmpty)) := by
  obtain ⟨herrors, hwarnings⟩ := Share.no_reports ⟨c, fs⟩ (by simp [hcode]) (by simp [hcode])
    (by simp [hcode, builtinRules])
  refine ⟨?_, herrors, hwarnings⟩
  rw [Share.kind_field hcode]
  show fieldData (Rule.contentValue c.operands.head?) _ = _
  rw [contentValue_text h hvalues]

theorem means_barcode {orientation : Orientation} {height : Int32} {readable above : Bool}
    {mode : Option String} {data : String} {c field separator : Call}
    (h : IsFieldText data.toList) (hcode : c.code.value = "BC")
    (hvalues : c.operands.map Token.value =
      (barcode orientation height readable above mode data).words.map String.ofList)
    (hfield : field.code.value = "FD") (hseparator : separator.code.value = "FS")
    (hdata : field.operands.map Token.value = Write.values "FD" data.toList) :
    Share.Means ⟨c, [.direct field, .direct separator]⟩
      (barcode orientation height readable above mode data) := by
  obtain ⟨herrors, hwarnings⟩ := Share.no_reports ⟨c, [.direct field, .direct separator]⟩
    (by simp [hcode]) (by simp [hcode]) (by simp [hcode, builtinRules])
  refine ⟨?_, herrors, hwarnings⟩
  have hcontent : Share.content ⟨c, [.direct field, .direct separator]⟩ = field.operands.head? := by
    simp [Share.content, Share.foldedOperands, Folded.direct, hfield, hseparator]
  have hslot : ∀ i, Rule.slot c.operands i = (_ : List String)[i]? :=
    fun i => (slot_eq _ i).trans (congrArg (fun values => values[i]?) hvalues)
  rw [Share.kind_barcode (by simp [hcode, barcodeCodes]), hcontent, contentValue_text h hdata]
  cases mode <;>
    simp [hslot, words, orientationOr_letter, intOr_integer, boolOr_flag]

end CommandKind

/-! ## The whole text -/

theorem closing_call {separator : Call} (h : separator.code.value = "FS") (ps : List Phrase) :
    closing (.call separator :: ps) = ([.direct separator], ps) := by
  rw [closing, Phrase.next?, if_pos h]

theorem carried_calls {field separator : Call} (hFD : field.code.value = "FD")
    (hFS : separator.code.value = "FS") (ps : List Phrase) :
    carried (.call field :: .call separator :: ps) = ([.direct field, .direct separator], ps) := by
  rw [carried, Phrase.next?, if_pos hFD]
  simp only [closing_call hFS]

theorem closing_lineBreak {t : Token} {ht : t.kind = .lineBreak} {ps : List Phrase}
    (h : Phrase.next? "FS" ps = none) :
    closing (.lineBreak t ht :: ps) = ([], .lineBreak t ht :: ps) := by
  rw [closing, Phrase.next?, h]
  rfl

/-- The first share of the phrases means the kind, and behind it stand the items. -/
def MeansFirst (kind : CommandKind) (items : List Item) (ps : List Phrase) : Prop :=
  ∃ s qs, shares ps = s :: shares qs ∧ qs.map Phrase.item = items ∧ s.Means kind

section MeansFirst

variable {ps : List Phrase} {items : List Item}

theorem meansFirst_plain {kind : CommandKind} (h : kind.Spellable) (hplain : kind.IsPlain)
    (hps : ps.map Phrase.item =
      .call kind.code (Write.values kind.code (Write.line kind.words)) :: .lineBreak :: items) :
    MeansFirst kind items ps := by
  obtain ⟨c, ps, rfl, hcode, hvalues, hps⟩ := exists_call_of_item hps
  obtain ⟨t, ht, qs, rfl, hqs⟩ := exists_lineBreak_of_item hps
  have hFV : kind.code ≠ "FV" := by cases kind <;> simp [CommandKind.code]
  rw [values_words ⟨hplain.1, hFV⟩ (CommandKind.words_isWord h)] at hvalues
  have hbarcode : c.code.value ∉ barcodeCodes := hcode ▸ hplain.not_barcode
  refine ⟨⟨c, []⟩, qs, ?_, hqs, CommandKind.means_plain h hplain hcode hvalues⟩
  rw [shares, Call.share, Call.fold_plain (hcode ▸ hplain.1) hbarcode, shares_lineBreak]

theorem meansFirst_field {content : String} {closed : Bool} (h : IsFieldText content.toList)
    (hps : ps.map Phrase.item =
      (CommandKind.fieldData content closed).items ++ .lineBreak :: items)
    (hnext : ∀ qs : List Phrase, qs.map Phrase.item = items → Phrase.next? "FS" qs = none) :
    MeansFirst (.fieldData content closed) items ps := by
  obtain ⟨c, ps, rfl, hcode, hvalues, hps⟩ := exists_call_of_item hps
  cases closed with
  | false =>
    obtain ⟨t, ht, qs, rfl, hqs⟩ := exists_lineBreak_of_item hps
    refine ⟨⟨c, []⟩, qs, ?_, hqs, CommandKind.means_field h hcode hvalues []⟩
    rw [shares, Call.share, Call.fold_field hcode, closing_lineBreak (hnext qs hqs), shares_lineBreak]
  | true =>
    obtain ⟨separator, ps, rfl, hFS, -, hps⟩ := exists_call_of_item hps
    obtain ⟨t, ht, qs, rfl, hqs⟩ := exists_lineBreak_of_item hps
    refine ⟨_, qs, ?_, hqs, CommandKind.means_field h hcode hvalues [.direct separator]⟩
    rw [shares, Call.share, Call.fold_field hcode, closing_call hFS, shares_lineBreak]

theorem meansFirst_barcode {orientation : Orientation} {height : Int32} {readable above : Bool}
    {mode : Option String} {data : String}
    (h : (CommandKind.barcode orientation height readable above mode data).Spellable)
    (hps : ps.map Phrase.item =
      (CommandKind.barcode orientation height readable above mode data).items ++
        .lineBreak :: items) :
    MeansFirst (.barcode orientation height readable above mode data) items ps := by
  obtain ⟨c, ps, rfl, hcode, hvalues, hps⟩ := exists_call_of_item hps
  obtain ⟨field, ps, rfl, hFD, hdata, hps⟩ := exists_call_of_item hps
  obtain ⟨separator, ps, rfl, hFS, -, hps⟩ := exists_call_of_item hps
  obtain ⟨t, ht, qs, rfl, hqs⟩ := exists_lineBreak_of_item hps
  have hBC : c.code.value = "BC" := hcode
  rw [values_words (by simp [CommandKind.code]) (CommandKind.words_isWord h)] at hvalues
  refine ⟨_, qs, ?_, hqs, CommandKind.means_barcode h.2 hBC hvalues hFD hFS hdata⟩
  rw [shares, Call.share, Call.fold_barcode (by simp [hBC, barcodeCodes]), carried_calls hFD hFS,
    shares_lineBreak]

/-- The phrases of a kind in front of those of other kinds make one share. -/
theorem meansFirst_items {kind : CommandKind} (h : kind.Spellable)
    (hps : ps.map Phrase.item = kind.items ++ .lineBreak :: items)
    (hnext : ∀ qs : List Phrase, qs.map Phrase.item = items → Phrase.next? "FS" qs = none) :
    MeansFirst kind items ps := by
  cases kind with
  | fieldData content closed => exact meansFirst_field h hps hnext
  | barcode orientation height readable above mode data => exact meansFirst_barcode h hps
  | generic => exact h.elim
  | _ => exact meansFirst_plain h (by simp [CommandKind.IsPlain, CommandKind.code]) hps

end MeansFirst

theorem CommandKind.exists_items {kind : CommandKind} (h : kind.Spellable) :
    ∃ values rest, kind.items = .call kind.code values :: rest := by
  cases kind with
  | generic => exact h.elim
  | _ => exact ⟨_, _, rfl⟩

/-- No line starts with a separator. -/
theorem next?_items {kinds : List CommandKind} (h : ∀ kind ∈ kinds, kind.Spellable)
    {ps : List Phrase}
    (hps : ps.map Phrase.item = kinds.flatMap fun kind => kind.items ++ [.lineBreak]) :
    Phrase.next? "FS" ps = none := by
  cases kinds with
  | nil =>
    obtain rfl : ps = [] := by simpa using hps
    rfl
  | cons kind kinds =>
    obtain ⟨values, rest, hitems⟩ := CommandKind.exists_items (h kind List.mem_cons_self)
    rw [List.flatMap_cons, hitems] at hps
    obtain ⟨c, qs, rfl, hcode, -, -⟩ := exists_call_of_item hps
    have hFS : c.code.value ≠ "FS" := by
      rw [hcode]
      cases kind <;> simp [CommandKind.code]
    rw [Phrase.next?, if_neg hFS]

/-- The text of a list of kinds is read as their items. -/
theorem reads_spelling {kinds : List CommandKind} (h : ∀ kind ∈ kinds, kind.Spellable) :
    ∃ xs, Reads (spelling kinds) xs (kinds.flatMap fun kind => kind.items ++ [.lineBreak]) := by
  induction kinds with
  | nil => exact ⟨[], .nil⟩
  | cons kind kinds ih =>
    obtain ⟨hkind, hkinds⟩ := List.forall_mem_cons.mp h
    obtain ⟨xs, hxs⟩ := ih hkinds
    obtain ⟨ys, hys⟩ := Reads.calls (CommandKind.callable hkind) hxs.lineBreak
    refine ⟨ys, ?_⟩
    simpa [spelling, CommandKind.spell, CommandKind.items] using hys

theorem shares_spelling {kinds : List CommandKind} (h : ∀ kind ∈ kinds, kind.Spellable)
    {ps : List Phrase}
    (hps : ps.map Phrase.item = kinds.flatMap fun kind => kind.items ++ [.lineBreak]) :
    (shares ps).map Share.kind = kinds ∧ (shares ps).flatMap Share.errors = [] ∧
      (shares ps).flatMap Share.warnings = [] := by
  induction kinds generalizing ps with
  | nil =>
    obtain rfl : ps = [] := by simpa using hps
    simp [shares]
  | cons kind kinds ih =>
    obtain ⟨hkind, hkinds⟩ := List.forall_mem_cons.mp h
    rw [List.flatMap_cons, List.append_assoc] at hps
    obtain ⟨s, qs, hshares, hqs, hs⟩ := meansFirst_items hkind hps fun _ => next?_items hkinds
    obtain ⟨hkinds, herrors, hwarnings⟩ := ih hkinds hqs
    rw [hshares, List.map_cons, List.flatMap_cons, List.flatMap_cons, hs.kind, hs.errors,
      hs.warnings, hkinds, herrors, hwarnings]
    exact ⟨rfl, rfl, rfl⟩

/-- The spelling of typed fields is read back as the fields, with nothing to report;
the size of the label is that of its rightmost origin and its first length. -/
theorem parse_spelling (kinds : List CommandKind) (h : ∀ kind ∈ kinds, kind.Spellable) :
    let document := Parser.standard.parse (.ofList (spelling kinds))
    document.commands.map Command.kind = kinds ∧
      document.metadata.errors = [] ∧
      document.metadata.warnings = [] ∧
      (∀ w, document.metadata.labelWidth = some w ↔
        ∃ x, ((∃ y, .fieldOrigin x y ∈ kinds) ∧
            ∀ x' y, .fieldOrigin x' y ∈ kinds → x'.toInt ≤ x.toInt) ∧
          w.toInt = max (-2147483648) (min (x.toInt + 100) 2147483647)) ∧
      ∀ n, document.metadata.labelLength = some n ↔ ∃ front back,
        kinds = front ++ .labelLength n :: back ∧ ∀ k, .labelLength k ∉ front := by
  obtain ⟨xs, hreads⟩ := reads_spelling h
  obtain ⟨ps, htokens, hitems⟩ := hreads.phrases .start none
  obtain ⟨hkinds, herrors, hwarnings⟩ := shares_spelling h hitems
  have hstream : (TokenStream.ofText .standard (.ofList (spelling kinds))).tokens =
      ps.flatMap Phrase.tokens ++ [.finishAt (Position.start.after (spelling kinds) none)] := by
    rw [TokenStream.ofText_tokens, String.toList_ofList, hreads.scan.eq, htokens]
  have hdocument := Parser.parse_shares 100 hstream
  generalize hcommands : (shares ps).map (Share.command _) = commands at hdocument
  have hcommandKinds : commands.map Command.kind = kinds := by
    rw [← hkinds, ← hcommands, List.map_map]
    rfl
  intro document
  have hdocument : document = _ := hdocument
  refine ⟨?_, ?_, ?_, fun w => ?_, fun n => ?_⟩
  · rw [hdocument, ← hcommandKinds]
  · rw [hdocument, hreads.errors, herrors]
    rfl
  · rw [hdocument, hwarnings]
  · rw [hdocument, labelWidth?_eq_some_iff]
    simp only [rightmost_iff_kinds, hcommandKinds]
    rfl
  · rw [hdocument, labelLength?_eq_some_iff_kinds, hcommandKinds]

theorem parse_spelling_label :
    let kinds : List CommandKind :=
      [.labelStart, .fieldOrigin (-5) 70, .font "0" .rotated 30 none, .fieldData "a, b" true,
        .barcode .normal 80 true false (some "U") "12", .labelLength 400, .labelEnd]
    (∀ kind ∈ kinds, kind.Spellable) ∧
      String.ofList (spelling kinds) =
        "^XA\n^FO-5,70\n^A0R,30\n^FDa, b^FS\n^BCN,80,Y,N,U^FD12^FS\n^LL400\n^XZ\n" ∧
      (Parser.standard.parse (.ofList (spelling kinds))).commands.map Command.kind = kinds ∧
      (Parser.standard.parse (.ofList (spelling kinds))).metadata.labelWidth = some 95 := by
  intro kinds
  have h : ∀ kind ∈ kinds, kind.Spellable := by
    simp [kinds, CommandKind.Spellable, IsFieldText, IsWord, Text.isLineBreak, Text.isBlank,
      Text.blankRanges]
  obtain ⟨hkinds, -, -, hwidth, -⟩ := parse_spelling kinds h
  refine ⟨h, by decide +kernel, hkinds, (hwidth 95).mpr ⟨-5, ⟨⟨70, by simp [kinds]⟩, ?_⟩, rfl⟩⟩
  intro x' y hmem
  obtain rfl : x' = -5 := by simp [kinds] at hmem; exact hmem.1
  exact Int.le_refl _

end Zpl
