import Zpl.Position

/-! Commands as a reader of labels sees them: the typed fields of each kind of
command, next to the text and the parameters it was read from. -/

namespace Zpl

/-- The rotation of a field. -/
inductive Orientation where
  | normal
  /-- A quarter turn clockwise. -/
  | rotated
  /-- A half turn. -/
  | inverted
  /-- Three quarter turns: read from the bottom up. -/
  | bottom
deriving DecidableEq

namespace Orientation

/-- The letter of an orientation in labels. -/
def letter : Orientation → String
  | normal => "N"
  | rotated => "R"
  | inverted => "I"
  | bottom => "B"

def ofLetter? : String → Option Orientation
  | "N" => some normal
  | "R" => some rotated
  | "I" => some inverted
  | "B" => some bottom
  | _ => none

theorem ofLetter?_letter (o : Orientation) : ofLetter? o.letter = some o := by
  cases o <;> rfl

end Orientation

inductive LineColor where
  | black
  | white
deriving DecidableEq

namespace LineColor

/-- The letter of a color in labels. -/
def letter : LineColor → String
  | black => "B"
  | white => "W"

def ofLetter? : String → Option LineColor
  | "B" => some black
  | "W" => some white
  | _ => none

theorem ofLetter?_letter (c : LineColor) : ofLetter? c.letter = some c := by
  cases c <;> rfl

end LineColor

/-- What a command says. Lengths are in dots. -/
inductive CommandKind where
  | labelStart
  | labelEnd
  | labelLength (length : Int32)
  /-- The point that all field positions are relative to. -/
  | labelHome (x y : Int32)
  | fieldOrigin (x y : Int32)
  | graphicBox (width height thickness : Int32) (color : LineColor) (rounding : Option Int32)
  /-- The text of a field; `closed` if a field separator ends it. -/
  | fieldData (content : String) (closed : Bool)
  /-- A barcode with its data. The two flags ask for a readable line, and for
  that line above the bars. -/
  | barcode (orientation : Orientation) (height : Int32) (readable above : Bool)
      (mode : Option String) (data : String)
  | font (name : String) (orientation : Orientation) (height : Int32) (width : Option Int32)
  /-- A command without typed fields. -/
  | generic
deriving DecidableEq

namespace CommandKind

/-- The name of a kind in serialized documents. -/
def name : CommandKind → String
  | labelStart => "label-start"
  | labelEnd => "label-end"
  | labelLength .. => "label-length"
  | labelHome .. => "label-home"
  | fieldOrigin .. => "field-origin"
  | graphicBox .. => "graphic-box"
  | fieldData .. => "field-data"
  | barcode .. => "barcode"
  | font .. => "font"
  | generic => "generic"

end CommandKind

structure Command where
  /-- The command code, without its marker. -/
  code : String
  /-- The source text from the marker to the last token of the command. -/
  rawText : String
  /-- Where the marker stands. -/
  position : Position
  /-- The values of the parameters in source order. -/
  parameters : List String
  kind : CommandKind
deriving DecidableEq

end Zpl
