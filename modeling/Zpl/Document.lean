import Zpl.Command
import Zpl.Diagnostic
import Zpl.Text.Decimal

/-! Documents: the commands of a label with what was noticed on reading it, and
the label's size as far as the commands tell it. -/

namespace Zpl

structure Metadata where
  sourceText : String
  /-- Lexical errors, then the errors of the grammar. -/
  errors : List Diagnostic
  warnings : List Diagnostic
  labelWidth : Option Int32
  labelLength : Option Int32
deriving DecidableEq

structure Document where
  commands : List Command
  metadata : Metadata
deriving DecidableEq

namespace Document

def hasErrors (d : Document) : Bool :=
  !d.metadata.errors.isEmpty

def commandsWithCode (d : Document) (code : String) : List Command :=
  d.commands.filter (·.code == code)

end Document

/-- The x coordinate of a field origin. -/
def Command.originX? (c : Command) : Option Int32 :=
  match c.kind with
  | .fieldOrigin x _ => some x
  | _ => none

/-- The length that a label length command sets. -/
def Command.labelLength? (c : Command) : Option Int32 :=
  match c.kind with
  | .labelLength length => some length
  | _ => none

/-- The width of a label: its rightmost field origin and some room beside it. -/
def labelWidth? (commands : List Command) (padding : Int32) : Option Int32 :=
  ((commands.filterMap Command.originX?).map Int32.toInt).max?.map fun x =>
    Text.clampInt32 (x + padding.toInt)

/-- The length of a label, which its first label length command sets. -/
def labelLength? (commands : List Command) : Option Int32 :=
  commands.findSome? Command.labelLength?

end Zpl
