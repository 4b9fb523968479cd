import Zpl.CommandLine.Answer
import Zpl.Proofs.Diagnosis
import Zpl.Proofs.JsonOrder
import Zpl.Proofs.JsonRoundTrip
import Zpl.Proofs.TruePosition

/-! The tasks of the program agree. Parsing a label, listing its tokens and checking it
answer with the same errors, in the printed values as in the exit status, wherever the text
comes from and in either format (`answers_agree`). -/

namespace Zpl

/-- The errors of the tokenizer have codes of their own. -/
def Diagnostic.isLexical (d : Diagnostic) : Bool :=
  "ZPL00".toList.isPrefixOf d.code.toList

namespace CommandLine

/-- A way to ask about a text: where the text is read, and which format is asked for or
taken if none is. -/
structure Asking (text : String) where
  read : String → Except ReadFailure String
  file : String
  asked : Option Format
  format : Format
  found : read file = .ok text

namespace Asking

variable {text : String}

def mode (a : Asking text) : Format :=
  a.asked.getD a.format

def answer (a : Asking text) (m : Marks) (padding : Int32) (task : Task) : Answer :=
  Request.answer a.read a.format (.label task ⟨a.file, m, padding⟩ a.asked)

end Asking

/-- The output is a value on lines of its own, and is read as the value if the positions of
the text fit 64 bits. -/
structure Prints (text out : String) (v : Json) : Prop where
  written : out = v.pretty ++ "\n"
  reads : Text.byteLength text.toList + 1 < 0x10000000000000000 → Json.read? out = some v

def diagnosticsJson (ds : List Diagnostic) : Json :=
  .array (ds.map Diagnostic.toJson)

/-- The answers about a text tell of the same document. -/
structure Agree (m : Marks) (padding : Int32) (text : String) (doc : Document) : Prop where
  /-- Errors make parsing and checking fail, and warnings do not. -/
  status : ∀ a b : Asking text,
    (a.answer m padding .parse).exitCode = (if doc.metadata.errors = [] then 0 else 1) ∧
      (b.answer m padding .check).exitCode = (if doc.metadata.errors = [] then 0 else 1)
  /-- Where the text comes from makes no difference, and the format makes one only for what
  a check prints. -/
  alike : ∀ (task : Task) (a b : Asking text),
    (a.answer m padding task).exitCode = (b.answer m padding task).exitCode ∧
      ((task = .check → a.mode = b.mode) →
        (a.answer m padding task).stdout = (b.answer m padding task).stdout)
  parsed : ∀ a : Asking text, ∃ commands sizes,
    Prints text (a.answer m padding .parse).stdout (.object [("commands", commands),
      ("metadata", .object ([("sourceText", .string text),
        ("errors", diagnosticsJson doc.metadata.errors),
        ("warnings", diagnosticsJson doc.metadata.warnings)] ++ sizes))])
  /-- The report of a check, but for the order of members. -/
  checked : ∀ a : Asking text, a.mode = .json → ∃ report,
    Prints text (a.answer m padding .check).stdout report ∧
      Json.Same (.object [("ok", .bool (decide ((a.answer m padding .check).exitCode = 0))),
        ("errors", diagnosticsJson doc.metadata.errors),
        ("warnings", diagnosticsJson doc.metadata.warnings)]) report
  /-- The tokenizer tells the first errors of the document, up to the first of the grammar. -/
  tokenized : ∀ a : Asking text, ∃ tokens,
    Prints text (a.answer m padding .tokens).stdout (.object [("tokens", tokens),
      ("errors", diagnosticsJson (doc.metadata.errors.takeWhile Diagnostic.isLexical))])
  grammar : ∀ d ∈ doc.metadata.errors.dropWhile Diagnostic.isLexical, d.code = "ZPL0102"
  tokensFail : ∀ a b : Asking text, (a.answer m padding .tokens).exitCode ≠ 0 →
    (b.answer m padding .check).exitCode ≠ 0
  checkFails : ∀ a b : Asking text, (a.answer m padding .tokens).exitCode = 0 →
    (b.answer m padding .check).exitCode ≠ 0 → ∀ d ∈ doc.metadata.errors, d.code = "ZPL0102"

end CommandLine

/-! ## Errors -/

section Errors

variable {m : Marks} {source : String}

/-- The errors of a document are those of the tokenizer and then those of the grammar. -/
theorem Parser.errors_split (m : Marks) (padding : Int32) (source : String) :
    ∃ own, ((Parser.mk .builtin m padding).parse source).metadata.errors =
        (TokenStream.ofText m source).errors ++ own ∧ ∀ d ∈ own, d.code = "ZPL0102" := by
  obtain ⟨own, herrors, hblame⟩ := (Parser.diagnosed m padding source).errors
  exact ⟨own, herrors, forall_mem_of_forall₂ hblame fun _ _ h => h.code⟩

theorem TokenStream.isLexical_of_mem {d : Diagnostic} (h : d ∈ (ofText m source).errors) :
    d.isLexical := by
  have hcodes : ∀ code ∈ ["ZPL0001", "ZPL0002", "ZPL0003"],
      "ZPL00".toList.isPrefixOf code.toList := by decide
  exact hcodes d.code (ofText_errors_lexical h).1

theorem isLexical_grammar {d : Diagnostic} (h : d.code = "ZPL0102") : d.isLexical = false := by
  rw [Diagnostic.isLexical, h]
  rfl

/-- The lexical errors come first. -/
theorem Parser.takeWhile_errors (m : Marks) (padding : Int32) (source : String) :
    let errors := ((Parser.mk .builtin m padding).parse source).metadata.errors
    errors.takeWhile Diagnostic.isLexical = (TokenStream.ofText m source).errors ∧
      ∀ d ∈ errors.dropWhile Diagnostic.isLexical, d.code = "ZPL0102" := by
  intro errors
  obtain ⟨own, (herrors : errors = _), hown⟩ := errors_split m padding source
  have hlexical : ∀ d ∈ (TokenStream.ofText m source).errors, d.isLexical :=
    fun _ => TokenStream.isLexical_of_mem
  have hgrammar : ∀ d, own.head? = some d → d.isLexical = false :=
    fun d hd => isLexical_grammar (hown d (List.mem_of_head? hd))
  rw [herrors, takeWhile_run hlexical hgrammar, dropWhile_run hlexical hgrammar]
  exact ⟨rfl, hown⟩

end Errors

/-! ## Printed values -/

theorem Text.length_le_byteLength (cs : List Char) : cs.length ≤ byteLength cs := by
  induction cs with
  | nil => exact Nat.le_refl 0
  | cons c cs ih =>
    have hsize : 0 < c.utf8Size := c.utf8Size_pos
    simp only [List.length_cons, byteLength]
    omega

/-- Positions of a text count no further than its bytes. -/
theorem Position.IsTrue.inRange {source : List Char} {p : Position} (h : p.IsTrue source)
    (hsize : Text.byteLength source + 1 < 0x10000000000000000) : p.InRange := by
  obtain ⟨n, hn, rfl⟩ := h
  have hlength := Text.length_le_byteLength source
  have htake := List.length_take_le n (Text.lineEnds source)
  have hcount := List.count_le_length (a := true) (l := (Text.lineEnds source).take n)
  have hwhile := (List.takeWhile_sublist (· == false)
    (l := ((Text.lineEnds source).take n).reverse)).length_le
  rw [List.length_reverse] at hwhile
  have hbytes : Text.byteLength (source.take n) ≤ Text.byteLength source := by
    have hsplit := congrArg Text.byteLength (List.take_append_drop n source)
    rw [Text.byteLength_append] at hsplit
    omega
  refine ⟨?_, ?_, ?_⟩
  · show 1 + _ < _
    omega
  · show 1 + _ < _
    omega
  · show Text.byteLength (source.take n) < _
    omega

section Size

variable {m : Marks} {text : String}

theorem Parser.parse_inRange (padding : Int32)
    (hsize : Text.byteLength text.toList + 1 < 0x10000000000000000) :
    ((Parser.mk .builtin m padding).parse text).InRange := by
  have hrange : ∀ p ∈ (Parser.mk .builtin m padding).positions text, p.InRange :=
    fun p hp => (isTrue_of_mem_positions hp).inRange hsize
  simp only [positions, List.forall_mem_append, List.forall_mem_map] at hrange
  obtain ⟨⟨⟨-, hcommands⟩, herrors⟩, hwarnings⟩ := hrange
  exact ⟨hcommands, List.forall_mem_append.mpr ⟨herrors, hwarnings⟩⟩

theorem Token.writable {depth : Nat} {t : Token} (h : t.position.InRange)
    (hdepth : depth + 1 < Json.maxDepth) : Json.Writable depth t.toJson := by
  have hposition := Position.writable h hdepth
  refine .object (by omega) ?_
  simp only [List.forall_mem_cons]
  exact ⟨.string t.kind.tag, .string t.value, hposition, .string t.raw, List.forall_mem_nil _⟩

theorem TokenStream.writable (hsize : Text.byteLength text.toList + 1 < 0x10000000000000000) :
    Json.Writable 0 (ofText m text).toJson := by
  have htokens : Json.Writable 1 (.array ((ofText m text).tokens.map Token.toJson)) :=
    .list (by decide) fun t ht => Token.writable ((token_isTrue ht).inRange hsize) (by decide)
  have herrors : Json.Writable 1 (.array ((ofText m text).errors.map Diagnostic.toJson)) :=
    Diagnostic.writable_list (fun d hd => (error_isTrue hd).inRange hsize) (by decide)
  refine .object (by decide) ?_
  simp only [List.forall_mem_cons]
  exact ⟨htokens, herrors, List.forall_mem_nil _⟩

theorem CommandLine.writable_checkJson {doc : Document} (h : doc.InRange) :
    Json.Writable 0 (checkJson doc) := by
  have herrors : Json.Writable 1 (.array (doc.metadata.errors.map Diagnostic.toJson)) :=
    Diagnostic.writable_list (fun d hd => h.metadata d (List.mem_append_left _ hd)) (by decide)
  have hwarnings : Json.Writable 1 (.array (doc.metadata.warnings.map Diagnostic.toJson)) :=
    Diagnostic.writable_list (fun d hd => h.metadata d (List.mem_append_right _ hd)) (by decide)
  refine .object (by decide) ?_
  simp only [List.forall_mem_cons]
  exact ⟨.bool _, herrors, hwarnings, List.forall_mem_nil _⟩

end Size

/-! ## Answers -/

namespace CommandLine

/-- The errors that a task is about. -/
def taskErrors (m : Marks) (padding : Int32) (text : String) : Task → List Diagnostic
  | .tokens => (TokenStream.ofText m text).errors
  | .parse | .check => ((Parser.mk .builtin m padding).parse text).metadata.errors

theorem noErrors_eq {ds : List Diagnostic} (h : ∀ d ∈ ds, d.severity = .error) :
    noErrors ds = decide (ds = []) := by
  cases ds with
  | nil => rfl
  | cons d ds => simp [noErrors, Diagnostic.isError, h d List.mem_cons_self]

namespace Asking

variable {text : String} {m : Marks} (a b : Asking text) (padding : Int32)

theorem answer_eq (hm : m.marker ≠ m.delimiter) (task : Task) :
    a.answer m padding task =
      .finished (taskResult task a.mode ⟨a.file, m, padding⟩ text) := by
  simp only [answer, Request.answer, a.found, if_neg hm, mode]

theorem exitCode_eq (hm : m.marker ≠ m.delimiter) (task : Task) :
    (a.answer m padding task).exitCode =
      if taskErrors m padding text task = [] then 0 else 1 := by
  have hok : (taskResult task a.mode ⟨a.file, m, padding⟩ text).ok =
      noErrors (taskErrors m padding text task) := by
    cases task with
    | parse => rfl
    | tokens => rfl
    | check =>
      unfold taskResult checkResult
      cases a.mode <;> rfl
  have hsevere : ∀ d ∈ taskErrors m padding text task, d.severity = .error := by
    have hdoc := (Parser.diagnosed m padding text).severe
    cases task with
    | parse => exact hdoc
    | tokens => exact fun d hd => (TokenStream.ofText_errors_lexical hd).2
    | check => exact hdoc
  rw [answer_eq a padding hm, Answer.exitCode, hok, noErrors_eq hsevere]
  simp only [decide_eq_true_eq]

/-- What a check prints does not depend on the name of the source. -/
theorem stdout_alike (hm : m.marker ≠ m.delimiter) (task : Task)
    (hmode : task = .check → a.mode = b.mode) :
    (a.answer m padding task).stdout = (b.answer m padding task).stdout := by
  rw [answer_eq a padding hm, answer_eq b padding hm]
  cases task with
  | parse => rfl
  | tokens => rfl
  | check =>
    rw [hmode rfl]
    simp only [Answer.stdout, taskResult, checkResult]
    cases b.mode <;> rfl

end Asking

/-! ## What is printed -/

theorem Prints.of_writable {text : String} {v : Json}
    (h : Text.byteLength text.toList + 1 < 0x10000000000000000 → Json.Writable 0 v) :
    Prints text (v.pretty ++ "\n") v :=
  ⟨rfl, fun hsize => Json.read?_line (h hsize)⟩

namespace Asking

variable {text : String} {m : Marks} (a : Asking text) (padding : Int32)

theorem prints_tokens (hm : m.marker ≠ m.delimiter) :
    Prints text (a.answer m padding .tokens).stdout (TokenStream.ofText m text).toJson := by
  rw [answer_eq a padding hm]
  exact .of_writable TokenStream.writable

theorem prints_document (hm : m.marker ≠ m.delimiter) :
    Prints text (a.answer m padding .parse).stdout
      ((Parser.mk .builtin m padding).parse text).toJson := by
  rw [answer_eq a padding hm]
  exact .of_writable fun hsize => Document.writable (Parser.parse_inRange padding hsize)

theorem prints_check (hm : m.marker ≠ m.delimiter) (hmode : a.mode = .json) :
    Prints text (a.answer m padding .check).stdout
      (checkJson ((Parser.mk .builtin m padding).parse text)).sorted := by
  rw [answer_eq a padding hm, hmode]
  exact .of_writable fun hsize => (writable_checkJson (Parser.parse_inRange padding hsize)).sorted

end Asking

end CommandLine

open CommandLine in
/-- Parsing, listing tokens and checking tell of one document: by their exit status, and by
the errors and warnings that they print. -/
theorem answers_agree (m : Marks) (padding : Int32) (text : String) (hm : m.marker ≠ m.delimiter) :
    Agree m padding text ((Parser.mk .builtin m padding).parse text) := by
  have hexit : ∀ (a : Asking text) task, (a.answer m padding task).exitCode =
      if taskErrors m padding text task = [] then 0 else 1 :=
    fun a task => a.exitCode_eq padding hm task
  obtain ⟨htake, hdrop⟩ := Parser.takeWhile_errors m padding text
  obtain ⟨own, herrors, hown⟩ := Parser.errors_split m padding text
  constructor
  case status => exact fun a b => ⟨hexit a .parse, hexit b .check⟩
  case alike => exact fun task a b => ⟨by rw [hexit, hexit], a.stdout_alike b padding hm task⟩
  case parsed =>
    intro a
    have hprints := a.prints_document padding hm
    rw [Document.toJson, Metadata.toJson, List.append_assoc] at hprints
    exact ⟨_, _, hprints⟩
  case checked =>
    intro a hmode
    refine ⟨_, a.prints_check padding hm hmode, ?_⟩
    have hok : decide ((a.answer m padding .check).exitCode = 0) =
        !((Parser.mk .builtin m padding).parse text).hasErrors := by
      rw [hexit, taskErrors, Document.hasErrors]
      cases ((Parser.mk .builtin m padding).parse text).metadata.errors <;> rfl
    rw [hok]
    exact Json.same_sorted (checkJson _)
  case tokenized =>
    intro a
    rw [htake]
    exact ⟨_, a.prints_tokens padding hm⟩
  case grammar => exact hdrop
  case tokensFail =>
    intro a b
    rw [hexit, hexit, taskErrors, taskErrors, herrors]
    cases (TokenStream.ofText m text).errors <;> simp
  case checkFails =>
    intro a b htokens _ d hd
    have hnone : (TokenStream.ofText m text).errors = [] := by
      by_contra hsome
      rw [hexit, taskErrors, if_neg hsome] at htokens
      exact absurd htokens (by decide)
    rw [herrors, hnone, List.nil_append] at hd
    exact hown d hd

open CommandLine in
/-- A missing coordinate fails a check but not the tokenizer, and the warning of an unknown
command fails neither. -/
theorem answers_agree_coordinate :
    let text := "^FO1^QQ"
    let doc := (Parser.mk .builtin .standard 100).parse text
    let stdin : Asking text := ⟨fun _ => .ok text, "-", none, .pretty, rfl⟩
    Marks.standard.marker ≠ Marks.standard.delimiter ∧ Agree .standard 100 text doc ∧
      (doc.metadata.errors.map Diagnostic.summary, doc.metadata.warnings.map Diagnostic.summary) =
        ([("ZPL0102", .error, ⟨1, 1, 0⟩)], [("ZPL0201", .warning, ⟨1, 5, 4⟩)]) ∧
      ((stdin.answer .standard 100 .tokens).exitCode, (stdin.answer .standard 100 .check).exitCode) =
        (0, 1) := by
  intro text doc stdin
  exact ⟨by decide, answers_agree .standard 100 text (by decide), by decide +kernel,
    by decide +kernel⟩

end Zpl
