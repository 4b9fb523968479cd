import Zpl.Grammar
import Zpl.Parameter

/-! The grammars of the built-in command set. Field data takes the separator
that closes it along, and a barcode takes the field data behind it along. All of
them accept any parameters: what does not fit a slot is read as its default. -/

namespace Zpl

namespace Rule

/-- The value of the parameter in a slot. -/
def slot (parameters : List Token) (index : Nat) : Option String :=
  parameters[index]?.map Token.value

/-- A command that consists of its parameters; `read` gives its typed fields. -/
def simple (read : List Token → CommandKind) : Rule := fun _ => do
  let parameters ← Grammar.takeParameters
  return ⟨parameters, read parameters⟩

def labelStart : Rule := simple fun _ => .labelStart

def labelEnd : Rule := simple fun _ => .labelEnd

def labelLength : Rule := simple fun ps => .labelLength (Parameter.intOr (slot ps 0) 100)

/-- The names of the coordinates that a list of parameters is too short for. -/
def missingCoordinates (parameters : List Token) : List String :=
  ["x", "y"].drop parameters.length

/-- A pair of coordinates. A missing one is an error and counts as zero. -/
def coordinates (make : Int32 → Int32 → CommandKind) : Rule := fun head => do
  let parameters ← Grammar.takeParameters
  let missing := missingCoordinates parameters
  unless missing.isEmpty do
    Grammar.report (.missingCoordinates head.code parameters.length missing) head.position
  let x := Parameter.intOr (slot parameters 0) 0
  let y := Parameter.intOr (slot parameters 1) 0
  return ⟨parameters, make x y⟩

def labelHome : Rule := coordinates .labelHome

def fieldOrigin : Rule := coordinates .fieldOrigin

def graphicBox : Rule := simple fun ps =>
  .graphicBox (Parameter.intOr (slot ps 0) 1) (Parameter.intOr (slot ps 1) 1)
    (Parameter.intOr (slot ps 2) 1) (Parameter.lineColorOr (slot ps 3))
    ((slot ps 4).bind Parameter.int?)

/-- The content of a field, behind the head of its command. A plain parameter
counts as content too, for token streams made by other rules. -/
def fieldContent : Grammar (Option Token) := do
  match ← Grammar.eat .content with
  | some content => return some content
  | none => Grammar.eat .parameter

/-- The value of a field content, empty if there is none. -/
def contentValue (content : Option Token) : String :=
  (content.map Token.value).getD ""

/-- The parameters of the separator that closes a field, if one does. -/
def closingSeparator : Grammar (Option (List Token)) := do
  if ← Grammar.skipCommand "FS" then return some (← Grammar.takeParameters)
  else return none

def fieldData : Rule := fun _ => do
  let content ← fieldContent
  let closing ← closingSeparator
  return ⟨content.toList ++ closing.getD [],
    .fieldData (contentValue content) closing.isSome⟩

/-- The data of a barcode, and the parameters of the separator behind them. -/
def barcodeData : Grammar (String × List Token) := do
  if ← Grammar.skipCommand "FD" then
    let content ← fieldContent
    let closing ← closingSeparator
    return (contentValue content, closing.getD [])
  else return ("", [])

/-- Parameters of the closing separator stand behind those of the barcode, but
only its own parameters fill its slots. -/
def barcode : Rule := fun _ => do
  let parameters ← Grammar.takeParameters
  let (data, trailing) ← barcodeData
  return ⟨parameters ++ trailing,
    .barcode (Parameter.orientationOr (slot parameters 0))
      (Parameter.intOr (slot parameters 1) 10) (Parameter.boolOr (slot parameters 2) true)
      (Parameter.boolOr (slot parameters 3) false) (slot parameters 4) data⟩

/-- Font name and orientation share the first parameter: one character is the
name and the rest the orientation. -/
def splitFont (first : Option String) : String × Orientation :=
  match first.map String.toList with
  | some (name :: rest) => (name.toString, Parameter.orientationOr (some (.ofList rest)))
  | _ => ("0", .normal)

def font : Rule := simple fun ps =>
  let (name, orientation) := splitFont (slot ps 0)
  let height := Parameter.intOr (slot ps 1) 10
  .font name orientation height ((slot ps 2).map fun width => Parameter.intOr (some width) height)

/-- A separator that no field has taken along closes nothing. -/
def fieldSeparator : Rule := fun head => do
  let parameters ← Grammar.takeParameters
  Grammar.report (.orphanedSeparator head.code) head.position
  return ⟨parameters, .generic⟩

/-- The rule for codes without a grammar: it keeps all operands and warns.
`nearest` gives the one known code that is close to a code. -/
def unsupported (nearest : String → Option String) : Rule := fun head => do
  let operands ← Grammar.takeWhile (fun kind => kind == .parameter || kind == .content) .done
  Grammar.report (.unsupportedCommand head.code (nearest head.code)) head.position
  return ⟨operands, .generic⟩

end Rule

/-- The built-in rules by command code. -/
def builtinRules : List (String × Rule) :=
  [("XA", Rule.labelStart), ("XZ", Rule.labelEnd), ("LL", Rule.labelLength),
   ("LH", Rule.labelHome), ("FO", Rule.fieldOrigin), ("GB", Rule.graphicBox),
   ("FD", Rule.fieldData), ("FS", Rule.fieldSeparator), ("BC", Rule.barcode),
   ("B3", Rule.barcode), ("BN", Rule.barcode), ("A", Rule.font)]

end Zpl
