import Zpl.CommandLine.Report
import Zpl.CommandLine.Request
import Zpl.Json.Encode
import Zpl.Json.Write
import Zpl.Parser

/-! What the program answers. An answer is a value: what goes to standard output,
which reports are shown, and how the program ends. Only errors in a label make
the program fail, and warnings never do. -/

namespace Zpl.CommandLine

/-- Why a source cannot be read. -/
inductive ReadFailure where
  /-- The operating system refuses, for a reason with an error number. -/
  | refused (reason : String) (number : Nat)
  | notUtf8
deriving DecidableEq

namespace ReadFailure

def noSuchFile : ReadFailure := refused "No such file or directory" 2

def notDirectory : ReadFailure := refused "Not a directory" 20

def isDirectory : ReadFailure := refused "Is a directory" 21

def nameTooLong : ReadFailure := refused "File name too long" 36

def cause : ReadFailure → String
  | refused reason number => s!"{reason} (os error {number})"
  | notUtf8 => "stream did not contain valid UTF-8"

end ReadFailure

/-- Why a request fails before a label is read. -/
inductive Failure where
  | unread (file : String) (failure : ReadFailure)
  /-- Marker and delimiter are the same character. -/
  | sameMarks (mark : Char)
deriving DecidableEq

/-- The name of a source in failures. -/
def inputName (file : String) : String :=
  if file = "-" then "stdin" else file

/-- The name of a source in reports. -/
def displayName (file : String) : String :=
  if file = "-" then "<stdin>" else file

def Failure.message : Failure → String
  | unread file failure =>
    s!"Error: failed to read {inputName file}\n\nCaused by:\n    {failure.cause}\n"
  | sameMarks mark => s!"Error: --prefix and --delimiter must differ (both are '{mark}')\n"

/-- The end of a request that could be carried out. -/
structure Result where
  /-- Whether no error was found. -/
  ok : Bool
  stdout : String
  reports : List Report
  /-- What follows the reports. -/
  tail : String
deriving DecidableEq

inductive Answer where
  | stopped (stop : Stop)
  | failed (failure : Failure)
  | finished (result : Result)
deriving DecidableEq

def programVersion : String := "zpl-label 0.1.0\n"

def usage : String :=
  "Usage: zpl-label [--output pretty|json] COMMAND\n\n" ++
  "Commands: parse FILE, tokens FILE, check FILE, explain CODE\n" ++
  "Options for files: --prefix CHAR, --delimiter CHAR, --width-padding N\n"

def Answer.exitCode : Answer → Nat
  | stopped .usage => 2
  | stopped _ => 0
  | failed _ => 1
  | finished result => if result.ok then 0 else 1

def Answer.stdout : Answer → String
  | stopped .version => programVersion
  | stopped .help => usage
  | stopped .usage | failed _ => ""
  | finished result => result.stdout

def Answer.stderr : Answer → String
  | stopped .usage => usage
  | stopped _ => ""
  | failed failure => failure.message
  | finished result => String.join (result.reports.map Report.render) ++ result.tail

/-- The diagnostics of a document in source order, errors before warnings where
both stand at one position. -/
def diagnosticsInOrder (d : Document) : List Diagnostic :=
  (d.metadata.errors ++ d.metadata.warnings).mergeSort fun a b => a.position.le b.position

def noErrors (ds : List Diagnostic) : Bool :=
  !ds.any Diagnostic.isError

/-- A result with diagnostics, which the pretty format shows as reports. -/
def resultWith (format : Format) (name text stdout : String) (errors shown : List Diagnostic) :
    Result :=
  { ok := noErrors errors
    stdout
    reports :=
      if format = .pretty then shown.map (Report.ofDiagnostic name text) else []
    tail := if format = .pretty then summary shown else "" }

def parseResult (format : Format) (name text : String) (d : Document) : Result :=
  resultWith format name text (d.toJson.pretty ++ "\n") d.metadata.errors (diagnosticsInOrder d)

def tokensResult (format : Format) (name text : String) (s : TokenStream) : Result :=
  resultWith format name text (s.toJson.pretty ++ "\n") s.errors s.errors

/-- The outcome of a check as JSON. -/
def checkJson (d : Document) : Json :=
  .object [("ok", .bool (!d.hasErrors)),
    ("errors", .array (d.metadata.errors.map Diagnostic.toJson)),
    ("warnings", .array (d.metadata.warnings.map Diagnostic.toJson))]

def checkResult (format : Format) (name text : String) (d : Document) : Result :=
  match format with
  | .json =>
    resultWith .json name text ((checkJson d).sorted.pretty ++ "\n") d.metadata.errors []
  | .pretty =>
    let shown := resultWith .pretty name text "" d.metadata.errors (diagnosticsInOrder d)
    { shown with tail := shown.tail ++ if d.hasErrors then "" else "syntax ok\n" }

def taskResult (task : Task) (format : Format) (source : Source) (text : String) : Result :=
  let name := displayName source.file
  let parser : Parser := ⟨.builtin, source.marks, source.padding⟩
  match task with
  | .parse => parseResult format name text (parser.parse text)
  | .tokens => tokensResult format name text (.ofText source.marks text)
  | .check => checkResult format name text (parser.parse text)

/-- The explanation of a diagnostic code, which may be written in small letters. -/
def explainResult (format : Format) (written : String) : Result :=
  let code := written.map Char.toUpper
  let explanation := Diagnostic.explain? code
  let text (value : Option String) : Json := value.elim .null .string
  let stdout := match format with
    | .json =>
      (Json.object [("id", .string code),
        ("severity", text ((Diagnostic.severity? code).map Severity.tag)),
        ("explanation", text explanation)]).sorted.pretty
    | .pretty => code ++ ": " ++ explanation.getD "(no explanation available)"
  ⟨true, stdout ++ "\n", [], ""⟩

/-- Carries out a request. `read` gives the text of a source, which is read before
anything else is looked at; `format` is the one used if none is asked for. -/
def Request.answer (read : String → Except ReadFailure String) (format : Format) :
    Request → Answer
  | explain code asked => .finished (explainResult (asked.getD format) code)
  | label task source asked =>
    match read source.file with
    | .error failure => .failed (.unread source.file failure)
    | .ok text =>
      if source.marks.marker = source.marks.delimiter then
        .failed (.sameMarks source.marks.marker)
      else .finished (taskResult task (asked.getD format) source text)

/-- The answer to the arguments of the program. -/
def answer (read : String → Except ReadFailure String) (format : Format) (args : List String) :
    Answer :=
  match Request.ofArguments args with
  | .error stop => .stopped stop
  | .ok request => request.answer read format

end Zpl.CommandLine
