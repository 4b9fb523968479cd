import Zpl.Document
import Zpl.Json
import Zpl.TokenStream

/-! The JSON form of documents, token streams and all they consist of. Fields
come in a fixed order, and an optional field without a value is left out. -/

namespace Zpl

namespace Json

def strings (values : List String) : Json :=
  .array (values.map .string)

def int32 (n : Int32) : Json :=
  .number n.toInt

/-- The member of a field that may have no value. -/
def member? {α : Type} (key : String) (encode : α → Json) (value : Option α) :
    List (String × Json) :=
  (value.map fun v => (key, encode v)).toList

end Json

def Position.toJson (p : Position) : Json :=
  .object [("line", .number p.line), ("column", .number p.column), ("offset", .number p.offset)]

/-- A map as an object with its keys as they are listed. -/
def KeyMap.toJson (m : KeyMap String) : Json :=
  .object (m.entries.map fun (key, value) => (key, .string value))

def Diagnostic.toJson (d : Diagnostic) : Json :=
  .object ([("code", .string d.code), ("severity", .string d.severity.tag),
      ("message", .string d.message), ("position", d.position.toJson)] ++
    Json.member? "suggestion" .string d.suggestion ++
    Json.member? "context" KeyMap.toJson d.context)

def Token.toJson (t : Token) : Json :=
  .object [("kind", .string t.kind.tag), ("value", .string t.value),
    ("position", t.position.toJson), ("raw", .string t.raw)]

def TokenStream.toJson (s : TokenStream) : Json :=
  .object [("tokens", .array (s.tokens.map Token.toJson)),
    ("errors", .array (s.errors.map Diagnostic.toJson))]

namespace CommandKind

/-- The typed fields of a kind. -/
def members : CommandKind → List (String × Json)
  | labelStart | labelEnd | generic => []
  | labelLength length => [("length", .int32 length)]
  | labelHome x y | fieldOrigin x y => [("x", .int32 x), ("y", .int32 y)]
  | graphicBox width height thickness color rounding =>
    [("width", .int32 width), ("height", .int32 height), ("thickness", .int32 thickness),
      ("color", .string color.letter)] ++ Json.member? "rounding" .int32 rounding
  | fieldData content closed => [("content", .string content), ("stopCommand", .bool closed)]
  | barcode orientation height readable above mode data =>
    [("orientation", .string orientation.letter), ("height", .int32 height),
      ("printInterpretationLine", .bool readable), ("printAboveCode", .bool above)] ++
      Json.member? "mode" .string mode ++ [("data", .string data)]
  | font name orientation height width =>
    [("font", .string name), ("orientation", .string orientation.letter),
      ("height", .int32 height)] ++ Json.member? "width" .int32 width

/-- The name of a kind and its typed fields. -/
def taggedMembers (kind : CommandKind) : List (String × Json) :=
  ("kind", .string kind.name) :: kind.members

def toJson (kind : CommandKind) : Json :=
  .object kind.taggedMembers

end CommandKind

def Command.toJson (c : Command) : Json :=
  .object ([("code", .string c.code), ("rawText", .string c.rawText),
    ("position", c.position.toJson), ("parameters", .strings c.parameters)] ++
    c.kind.taggedMembers)

def Metadata.toJson (m : Metadata) : Json :=
  .object ([("sourceText", .string m.sourceText),
      ("errors", .array (m.errors.map Diagnostic.toJson)),
      ("warnings", .array (m.warnings.map Diagnostic.toJson))] ++
    Json.member? "derivedLabelWidth" .int32 m.labelWidth ++
    Json.member? "derivedLabelLength" .int32 m.labelLength)

def Document.toJson (d : Document) : Json :=
  .object [("commands", .array (d.commands.map Command.toJson)),
    ("metadata", d.metadata.toJson)]

end Zpl
