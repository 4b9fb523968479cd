import Zpl.Grammar.Builtin
import Zpl.Text.Quoted

/-! Registries: which rule reads the commands of which code. -/

namespace Zpl

abbrev Registry := KeyMap Rule

namespace Registry

def builtin : Registry :=
  .ofList builtinRules

/-- Whether two codes have the same length in bytes and differ in exactly one of
the characters that they pair up. -/
def isNear (known code : String) : Bool :=
  Text.byteLength known.toList == Text.byteLength code.toList &&
    (known.toList.zip code.toList).countP (fun (a, b) => a != b) == 1

/-- The registered code near a code, if there is exactly one. -/
def nearest? (r : Registry) (code : String) : Option String :=
  match r.keys.filter (isNear · code) with
  | [known] => some known
  | _ => none

/-- The rule for the commands of a code, registered or not. -/
def ruleFor (r : Registry) (code : String) : Rule :=
  (r.find? code).getD (Rule.unsupported r.nearest?)

/-- The registered codes as a set of quoted texts. -/
def display (r : Registry) : String :=
  "\x7b" ++ ", ".intercalate (r.keys.map Text.quoted) ++ "\x7d"

end Registry
end Zpl
