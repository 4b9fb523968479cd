import Zpl.Diagnostic.Catalog
import Zpl.Text.Bytes

/-! Reports: diagnostics as the program shows them to people. A report counts the
lines of a source as text displays do, where more characters end a line than in
the grammar of labels. -/

namespace Zpl.CommandLine

/-- Whether a display ends a line behind `c`, with `next` behind it. -/
def endsDisplayLine (c : Char) (next : Option Char) : Bool :=
  c == '\n' || (c == '\r' && next != some '\n') ||
    ['\x0b', '\x0c', '\u0085', '\u2028', '\u2029'].contains c

/-- Line and column of the character at a byte offset, counted on from a line and
column; the last place of the text if the offset is beyond it. -/
def displayPlace : List Char → Nat → Nat × Nat → Nat × Nat
  | [], _, place => place
  | c :: cs, offset, (line, column) =>
    if c.utf8Size ≤ offset then
      displayPlace cs (offset - c.utf8Size)
        (if endsDisplayLine c cs.head? then (line + 1, 1) else (line, column + 1))
    else (line, column)

structure Report where
  /-- Code, severity and message. -/
  head : String
  /-- Name, line and column of the place. -/
  place : String
  /-- What stands at the place. -/
  label : String
  help : Option String
  note : Option String
deriving DecidableEq

namespace Report

def severityName : Severity → String
  | .error => "Error"
  | .warning => "Warning"

/-- The details of a diagnostic, or its message if there are none. -/
def labelOf (d : Diagnostic) : String :=
  match d.context.map KeyMap.entries with
  | none | some [] => d.message
  | some entries => ", ".intercalate (entries.map fun (key, value) => s!"{key}={value}")

/-- The report of a diagnostic on a named source. -/
def ofDiagnostic (name source : String) (d : Diagnostic) : Report :=
  let (line, column) := displayPlace source.toList d.position.offset (1, 1)
  { head := s!"[{d.code}] {severityName d.severity}: {d.message}"
    place := s!"{name}:{line}:{column}"
    label := labelOf d
    help := Diagnostic.explain? d.code
    note := d.suggestion }

/-- A report as lines of text. -/
def render (r : Report) : String :=
  "\n".intercalate ([r.head, "  at " ++ r.place, "  " ++ r.label] ++
    (r.help.map ("  Help: " ++ ·)).toList ++ (r.note.map ("  Note: " ++ ·)).toList) ++ "\n"

end Report

/-- A number of things, in words. -/
def counted (n : Nat) (thing : String) : String :=
  if n = 1 then s!"{n} {thing}" else s!"{n} {thing}s"

/-- The line that sums up diagnostics; there is none if there are none. -/
def summary (ds : List Diagnostic) : String :=
  let errors := ds.countP Diagnostic.isError
  let warnings := ds.length - errors
  if ds.isEmpty then ""
  else ", ".intercalate ((if errors = 0 then [] else [counted errors "error"]) ++
    (if warnings = 0 then [] else [counted warnings "warning"])) ++ "\n"

end Zpl.CommandLine
