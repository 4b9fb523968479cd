import Zpl.Command
import Zpl.Text.Blank
import Zpl.Text.Decimal

/-! Values of command parameters. White space around a value does not count,
and a value that does not fit its slot is read as the default of that slot: a
bad parameter never makes a command unreadable. -/

namespace Zpl.Parameter

def trimmed (value : String) : String :=
  .ofList (Text.trim value.toList)

def int? (value : String) : Option Int32 :=
  Text.readInt32? (Text.trim value.toList)

/-- A decimal integer, or the default. -/
def intOr (value : Option String) (default : Int32) : Int32 :=
  (value.bind int?).getD default

def bool? (value : String) : Option Bool :=
  match trimmed value with
  | "Y" => some true
  | "N" => some false
  | _ => none

/-- `Y` or `N`, or the default. -/
def boolOr (value : Option String) (default : Bool) : Bool :=
  (value.bind bool?).getD default

def orientation? (value : String) : Option Orientation :=
  Orientation.ofLetter? (trimmed value)

/-- The letter of an orientation; upright if there is none. -/
def orientationOr (value : Option String) : Orientation :=
  (value.bind orientation?).getD .normal

/-- The letter of a line color; black if there is none. -/
def lineColorOr (value : Option String) : LineColor :=
  (value.bind fun v => LineColor.ofLetter? (trimmed v)).getD .black

end Zpl.Parameter
