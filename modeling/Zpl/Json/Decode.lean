import Zpl.Document
import Zpl.Json.Record

/-! Reading documents and their parts back from JSON. All parts are records,
except that a command is always an object, because it holds the fields of its
kind next to its own. Members that are no fields are skipped. -/

namespace Zpl

/-- A position counts in 64 bits. -/
def Position.count? (value : Json) : Option Nat := do
  let n ← value.number?
  if 0 ≤ n ∧ n < 0x10000000000000000 then some n.toNat else none

def Position.fields : List String := ["line", "column", "offset"]

def Position.ofJson? (value : Json) : Option Position := do
  return {
    line := ← Json.required fields "line" count? value
    column := ← Json.required fields "column" count? value
    offset := ← Json.required fields "offset" count? value }

def Severity.ofJson? : Json → Option Severity
  | .string name => ofTag? name
  | .object [(name, .null)] => ofTag? name
  | _ => none

/-- A map of texts; of several members with one key the last counts. -/
def KeyMap.ofJson? : Json → Option (KeyMap String)
  | .object members => do
    return .ofList (← members.mapM fun (key, value) => value.string?.map fun s => (key, s))
  | _ => none

def Diagnostic.fields : List String :=
  ["code", "severity", "message", "position", "suggestion", "context"]

def Diagnostic.ofJson? (value : Json) : Option Diagnostic := do
  return {
    code := ← Json.required fields "code" Json.string? value
    severity := ← Json.required fields "severity" Severity.ofJson? value
    message := ← Json.required fields "message" Json.string? value
    position := ← Json.required fields "position" Position.ofJson? value
    suggestion := ← Json.optional fields "suggestion" Json.string? value
    context := ← Json.optional fields "context" KeyMap.ofJson? value }

namespace Json

def int32? (value : Json) : Option Int32 :=
  value.number?.bind Text.int32?

/-- A letter, written as a string or as the one key of an object without
further content. -/
def letter? : Json → Option String
  | .string s => some s
  | .object [(s, .null)] | .object [(s, .object [])] => some s
  | _ => none

end Json

namespace CommandKind

/-- The names of the kinds, in their order. -/
def names : List String :=
  ["label-start", "label-end", "label-length", "label-home", "field-origin", "graphic-box",
    "field-data", "barcode", "font", "generic"]

/-- The fields of the kind with a name. -/
def fieldsOf : String → List String
  | "label-length" => ["length"]
  | "label-home" | "field-origin" => ["x", "y"]
  | "graphic-box" => ["width", "height", "thickness", "color", "rounding"]
  | "field-data" => ["content", "stopCommand"]
  | "barcode" =>
    ["orientation", "height", "printInterpretationLine", "printAboveCode", "mode", "data"]
  | "font" => ["font", "orientation", "height", "width"]
  | _ => []

def orientation? (value : Json) : Option Orientation :=
  value.letter?.bind Orientation.ofLetter?

def lineColor? (value : Json) : Option LineColor :=
  value.letter?.bind LineColor.ofLetter?

/-- The kind with a name, whose fields are those of a record. -/
def ofRecord? (name : String) (value : Json) : Option CommandKind :=
  let fields := fieldsOf name
  let int (key : String) := Json.required fields key Json.int32? value
  let text (key : String) := Json.required fields key Json.string? value
  let flag (key : String) := Json.required fields key Json.bool? value
  let turn := Json.required fields "orientation" orientation? value
  match name with
  | "label-start" => some labelStart
  | "label-end" => some labelEnd
  | "label-length" => do return labelLength (← int "length")
  | "label-home" => do return labelHome (← int "x") (← int "y")
  | "field-origin" => do return fieldOrigin (← int "x") (← int "y")
  | "graphic-box" => do
    return graphicBox (← int "width") (← int "height") (← int "thickness")
      (← Json.required fields "color" lineColor? value)
      (← Json.optional fields "rounding" Json.int32? value)
  | "field-data" => do return fieldData (← text "content") (← flag "stopCommand")
  | "barcode" => do
    return barcode (← turn) (← int "height") (← flag "printInterpretationLine")
      (← flag "printAboveCode") (← Json.optional fields "mode" Json.string? value)
      (← text "data")
  | "font" => do
    return font (← text "font") (← turn) (← int "height")
      (← Json.optional fields "width" Json.int32? value)
  | "generic" => some generic
  | _ => none

/-- Whether all members of an object but those of the given keys can be read.
They are, before it is known which of them are fields. -/
def othersReadable (keys : List String) (members : List (String × Json)) : Bool :=
  members.all fun (key, value) => keys.contains key || value.readable

/-- A kind on its own: an object with the name of the kind among its members, or
an array with the name in front. -/
def ofJson? : Json → Option CommandKind
  | .object members => do
    let name ← (← (← Json.uniqueMember? members "kind")).string?
    if othersReadable ["kind"] members then ofRecord? name (.object members) else none
  | .array (.string name :: items) =>
    if items.all Json.readable && items.length ≤ (fieldsOf name).length then
      ofRecord? name (.array items)
    else none
  | _ => none

/-- The name of the kind of a command, which may be given by its number too. -/
def name? : Json → Option String
  | .string name => some name
  | .number n => if 0 ≤ n then names[n.toNat]? else none
  | _ => none

end CommandKind

def Command.fields : List String := ["code", "rawText", "position", "parameters"]

def Command.ofJson? (value : Json) : Option Command := do
  let .object members := value | none
  if !CommandKind.othersReadable fields members then none
  let name ← CommandKind.name? (← (← Json.uniqueMember? members "kind"))
  return {
    code := ← Json.required fields "code" Json.string? value
    rawText := ← Json.required fields "rawText" Json.string? value
    position := ← Json.required fields "position" Position.ofJson? value
    parameters := ← Json.required fields "parameters" (Json.list? Json.string?) value
    kind := ← CommandKind.ofRecord? name value }

def Metadata.fields : List String :=
  ["sourceText", "errors", "warnings", "derivedLabelWidth", "derivedLabelLength"]

def Metadata.ofJson? (value : Json) : Option Metadata := do
  return {
    sourceText := ← Json.required fields "sourceText" Json.string? value
    errors := ← Json.required fields "errors" (Json.list? Diagnostic.ofJson?) value
    warnings := ← Json.required fields "warnings" (Json.list? Diagnostic.ofJson?) value
    labelWidth := ← Json.optional fields "derivedLabelWidth" Json.int32? value
    labelLength := ← Json.optional fields "derivedLabelLength" Json.int32? value }

def Document.fields : List String := ["commands", "metadata"]

def Document.ofJson? (value : Json) : Option Document := do
  return {
    commands := ← Json.required fields "commands" (Json.list? Command.ofJson?) value
    metadata := ← Json.required fields "metadata" Metadata.ofJson? value }

end Zpl
