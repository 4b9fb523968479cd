import Zpl.Json.Decode
import Zpl.Json.Encode
import Zpl.Proofs.JsonText

/-! Documents and their parts come back from JSON. A record is found again member by
member, since no two members of one object share a name and a member without a value is
left out (`ofJson?_toJson` for each type). A command holds the fields of its kind next to
its own, and no kind has a field of a command's own name (`ofRecord?_append`). Together
with the reading of text this makes each type come back from both its written forms
(`json_roundTrips`). -/

namespace Zpl

namespace Position

/-- The parts of a position count in 64 bits. -/
structure InRange (p : Position) : Prop where
  line : p.line < 0x10000000000000000
  column : p.column < 0x10000000000000000
  offset : p.offset < 0x10000000000000000

end Position

def Metadata.InRange (m : Metadata) : Prop :=
  ∀ d ∈ m.errors ++ m.warnings, d.position.InRange

structure Document.InRange (d : Document) : Prop where
  commands : ∀ c ∈ d.commands, c.position.InRange
  metadata : d.metadata.InRange

namespace Json

/-- A value comes back from the compact and from the indented text that it is written to. -/
structure RoundTrips {α : Type} (encode : α → Json) (decode : Json → Option α) (a : α) : Prop where
  compact : (read? (encode a).compact).bind decode = some a
  pretty : (read? (encode a).pretty).bind decode = some a

variable {α : Type} {encode : α → Json} {decode : Json → Option α}

theorem RoundTrips.intro {a : α} (hwritable : Writable 0 (encode a))
    (hdecode : decode (encode a) = some a) : RoundTrips encode decode a where
  compact := by
    rw [Json.compact, read?_write Layout.compact_blank hwritable, Option.bind_some, hdecode]
  pretty := by
    rw [Json.pretty, read?_write Layout.pretty_blank hwritable, Option.bind_some, hdecode]

/-! ## Members -/

@[simp] theorem uniqueMember?_nil (key : String) : uniqueMember? [] key = some none := rfl

@[simp] theorem uniqueMember?_cons_ne {name key : String} (h : name ≠ key) (value : Json)
    (members : List (String × Json)) :
    uniqueMember? ((name, value) :: members) key = uniqueMember? members key := by
  simp [uniqueMember?, h]

theorem filter_name_eq_nil {key : String} {members : List (String × Json)}
    (h : key ∉ members.map Prod.fst) : members.filter (·.1 == key) = [] := by
  rw [List.filter_eq_nil_iff]
  intro member hmember hname
  have hkey : member.1 = key := by simpa using hname
  exact h (hkey ▸ List.mem_map_of_mem hmember)

theorem uniqueMember?_eq_none {key : String} {members : List (String × Json)}
    (h : key ∉ members.map Prod.fst) : uniqueMember? members key = some none := by
  rw [uniqueMember?, filter_name_eq_nil h]

@[simp] theorem uniqueMember?_cons_self {key : String} {members : List (String × Json)}
    (h : key ∉ members.map Prod.fst) (value : Json) :
    uniqueMember? ((key, value) :: members) key = some (some value) := by
  simp [uniqueMember?, filter_name_eq_nil h]

@[simp] theorem uniqueMember?_append {key : String} {front : List (String × Json)}
    (h : key ∉ front.map Prod.fst) (members : List (String × Json)) :
    uniqueMember? (front ++ members) key = uniqueMember? members key := by
  induction front with
  | nil => rfl
  | cons member front ih =>
    rw [List.map_cons, List.mem_cons, not_or] at h
    rw [List.cons_append, uniqueMember?_cons_ne (Ne.symm h.1), ih h.2]

theorem uniqueMember?_append_left {key : String} {members : List (String × Json)}
    (h : key ∉ members.map Prod.fst) (front : List (String × Json)) :
    uniqueMember? (front ++ members) key = uniqueMember? front key := by
  rw [uniqueMember?, List.filter_append, filter_name_eq_nil h, List.append_nil]
  rfl

@[simp] theorem field?_object (fields : List String) (key : String)
    (members : List (String × Json)) :
    field? fields key (.object members) = uniqueMember? members key := rfl

/-- The members of an optional field have its name. -/
@[simp] theorem not_mem_keys_member? {name key : String} (h : name ≠ key)
    (encode : α → Json) (value : Option α) :
    key ∉ (member? name encode value).map Prod.fst := by
  cases value with
  | none => exact List.not_mem_nil
  | some a => exact fun hkey => h (List.mem_singleton.mp hkey).symm

@[simp] theorem uniqueMember?_member?_append {key : String} {members : List (String × Json)}
    (h : key ∉ members.map Prod.fst) (encode : α → Json) (value : Option α) :
    uniqueMember? (member? key encode value ++ members) key = some (value.map encode) := by
  cases value with
  | none => exact uniqueMember?_eq_none h
  | some a => exact uniqueMember?_cons_self h (encode a)

@[simp] theorem uniqueMember?_member? (key : String) (encode : α → Json) (value : Option α) :
    uniqueMember? (member? key encode value) key = some (value.map encode) := by
  cases value with
  | none => rfl
  | some a => exact uniqueMember?_cons_self List.not_mem_nil (encode a)

theorem forall_mem_member? {P : String × Json → Prop} {key : String} {value : Option α}
    (h : ∀ a, value = some a → P (key, encode a)) :
    ∀ member ∈ member? key encode value, P member := by
  cases value with
  | none => exact List.forall_mem_nil _
  | some a => exact List.forall_mem_singleton.mpr (h a rfl)

@[simp] theorem string?_string (s : String) : string? (.string s) = some s := rfl

@[simp] theorem bool?_bool (b : Bool) : bool? (.bool b) = some b := rfl

@[simp] theorem int32?_int32 (n : Int32) : int32? (int32 n) = some n := by
  rw [int32?, int32, number?, Option.bind_some, Text.int32?,
    if_pos ⟨n.minValue_le_toInt, n.toInt_le⟩, Int32.ofInt_toInt]

theorem required_object {members : List (String × Json)} {key : String} {value : Json} {a : α}
    (h : uniqueMember? members key = some (some value)) (fields : List String)
    (hdecode : decode value = some a) :
    required fields key decode (.object members) = some a := by
  simp [required, h, hdecode]

/-- A field that may have no value is read back, unless a value is written as null. -/
theorem optional_object {members : List (String × Json)} {key : String} {value : Option α}
    (h : uniqueMember? members key = some (value.map encode)) (fields : List String)
    (hdecode : ∀ a, decode (encode a) = some a) (hnull : ∀ a, encode a ≠ .null) :
    optional fields key decode (.object members) = some value := by
  cases value with
  | none => simp [Json.optional, h]
  | some a => simp [Json.optional, h, hdecode, hnull]

theorem list?_array {items : List α} (h : ∀ a ∈ items, decode (encode a) = some a) :
    list? decode (.array (items.map encode)) = some items :=
  mapM_map_eq_some h

theorem readableItems_eq (items : List Json) : readableItems items = items.all readable := by
  induction items with
  | nil => rw [readableItems, List.all_nil]
  | cons item items ih => rw [readableItems, ih, List.all_cons]

theorem readableMembers_eq (members : List (String × Json)) :
    readableMembers members = members.all (·.2.readable) := by
  induction members with
  | nil => rw [readableMembers, List.all_nil]
  | cons member members ih => rw [readableMembers, ih, List.all_cons]

/-- A value whose text is read back has no unreadable part. -/
theorem Writable.readable {depth : Nat} {v : Json} (h : Writable depth v) : v.readable = true := by
  induction h with
  | null | bool | number | decimal | string => simp [Json.readable]
  | array _ _ ih =>
    rw [Json.readable, readableItems_eq]
    exact List.all_eq_true.mpr ih
  | object _ _ ih =>
    rw [Json.readable, readableMembers_eq]
    exact List.all_eq_true.mpr ih

/-! ## Values that can be written -/

theorem Writable.int32 {depth : Nat} (n : Int32) : Writable depth (.int32 n) := by
  refine .number_of_natAbs_lt ?_
  have hleast := n.minValue_le_toInt
  have hgreatest := n.toInt_le
  simp only [Int32.toInt_minValue, Int32.toInt_maxValue] at hleast hgreatest
  omega

theorem Writable.member {depth : Nat} {key : String} {value : Option α}
    (h : ∀ a, value = some a → Writable depth (encode a)) :
    ∀ member ∈ member? key encode value, Writable depth member.2 :=
  forall_mem_member? h

theorem Writable.list {depth : Nat} (hdepth : depth < maxDepth) {items : List α}
    (h : ∀ a ∈ items, Writable (depth + 1) (encode a)) :
    Writable depth (.array (items.map encode)) := by
  refine .array hdepth fun item hitem => ?_
  obtain ⟨a, ha, rfl⟩ := List.mem_map.mp hitem
  exact h a ha

end Json

open Json

/-! ## Maps -/

namespace KeyMap

theorem ofJson?_toJson (m : KeyMap String) : ofJson? m.toJson = some m := by
  rw [toJson, ofJson?, mapM_map_eq_some]
  · exact congrArg some (ofList_eq_of_perm .rfl)
  · exact fun _ _ => rfl

theorem writable {depth : Nat} (m : KeyMap String) (hdepth : depth < maxDepth) :
    Writable depth m.toJson := by
  refine .object hdepth fun member hmember => ?_
  obtain ⟨e, -, rfl⟩ := List.mem_map.mp hmember
  exact .string e.2

end KeyMap

/-! ## Positions and diagnostics -/

namespace Position

theorem count?_number (n : Int) :
    count? (.number n) = if 0 ≤ n ∧ n < 0x10000000000000000 then some n.toNat else none := by
  rw [count?, number?, Option.bind_eq_bind, Option.bind_some]

theorem count?_natCast {n : Nat} (h : n < 0x10000000000000000) : count? (.number n) = some n := by
  have hrange : (0 : Int) ≤ n ∧ (n : Int) < 0x10000000000000000 := by omega
  rw [count?_number, if_pos hrange, Int.toNat_natCast]

theorem ofJson?_toJson {p : Position} (h : p.InRange) : ofJson? p.toJson = some p := by
  have hline : required fields "line" count? p.toJson = some p.line :=
    required_object (by simp) fields (count?_natCast h.line)
  have hcolumn : required fields "column" count? p.toJson = some p.column :=
    required_object (by simp) fields (count?_natCast h.column)
  have hoffset : required fields "offset" count? p.toJson = some p.offset :=
    required_object (by simp) fields (count?_natCast h.offset)
  rw [ofJson?, hline, hcolumn, hoffset]
  rfl

theorem writable {depth : Nat} {p : Position} (h : p.InRange) (hdepth : depth < maxDepth) :
    Writable depth p.toJson := by
  have hnumber : ∀ n : Nat, n < 0x10000000000000000 → Writable (depth + 1) (.number n) := by
    intro n hn
    refine .number_of_natAbs_lt ?_
    rw [Int.natAbs_natCast]
    exact hn
  refine .object hdepth ?_
  simp only [List.forall_mem_cons]
  exact ⟨hnumber _ h.line, hnumber _ h.column, hnumber _ h.offset, List.forall_mem_nil _⟩

end Position

theorem Severity.ofJson?_tag (s : Severity) : ofJson? (.string s.tag) = some s := by
  cases s <;> rfl

namespace Diagnostic

theorem ofJson?_toJson {d : Diagnostic} (h : d.position.InRange) : ofJson? d.toJson = some d := by
  have hcode : required fields "code" string? d.toJson = some d.code :=
    required_object (by simp) fields (string?_string d.code)
  have hseverity : required fields "severity" Severity.ofJson? d.toJson = some d.severity :=
    required_object (by simp) fields (Severity.ofJson?_tag d.severity)
  have hmessage : required fields "message" string? d.toJson = some d.message :=
    required_object (by simp) fields (string?_string d.message)
  have hposition : required fields "position" Position.ofJson? d.toJson = some d.position :=
    required_object (by simp) fields (Position.ofJson?_toJson h)
  have hsuggestion : Json.optional fields "suggestion" string? d.toJson = some d.suggestion :=
    optional_object (by simp) fields string?_string fun _ => Json.noConfusion
  have hcontext : Json.optional fields "context" KeyMap.ofJson? d.toJson = some d.context :=
    optional_object (by simp) fields KeyMap.ofJson?_toJson fun _ => Json.noConfusion
  rw [ofJson?, hcode, hseverity, hmessage, hposition, hsuggestion, hcontext]
  rfl

theorem writable {depth : Nat} {d : Diagnostic} (h : d.position.InRange)
    (hdepth : depth + 1 < maxDepth) : Writable depth d.toJson := by
  have hposition := Position.writable h hdepth
  refine .object (by omega) ?_
  simp only [List.forall_mem_append, List.forall_mem_cons]
  refine ⟨⟨⟨.string d.code, .string d.severity.tag, .string d.message, hposition,
    List.forall_mem_nil _⟩, ?_⟩, ?_⟩
  · exact Writable.member fun hint _ => .string hint
  · exact Writable.member fun details _ => details.writable hdepth

theorem writable_list {depth : Nat} {ds : List Diagnostic} (h : ∀ d ∈ ds, d.position.InRange)
    (hdepth : depth + 2 < maxDepth) : Writable depth (.array (ds.map toJson)) :=
  .list (by omega) fun d hd => writable (h d hd) hdepth

end Diagnostic

/-! ## Commands -/

namespace CommandKind

/-- Members that are no fields of a kind do not change what the kind is read from. -/
theorem ofRecord?_append {name : String} {front : List (String × Json)}
    (h : ∀ key ∈ fieldsOf name, key ∉ front.map Prod.fst) (members : List (String × Json)) :
    ofRecord? name (.object (front ++ members)) = ofRecord? name (.object members) := by
  have hfield : ∀ key ∈ fieldsOf name, field? (fieldsOf name) key (.object (front ++ members)) =
      field? (fieldsOf name) key (.object members) := by
    intro key hkey
    rw [field?_object, field?_object, uniqueMember?_append (h key hkey)]
  unfold ofRecord? Json.required Json.optional
  split <;> simp only [fieldsOf, List.forall_mem_cons] at hfield <;> simp only [fieldsOf, hfield]

theorem orientation?_letter (o : Orientation) : orientation? (.string o.letter) = some o :=
  Orientation.ofLetter?_letter o

theorem lineColor?_letter (c : LineColor) : lineColor? (.string c.letter) = some c :=
  LineColor.ofLetter?_letter c

/-- A kind is read back from its name and its fields. -/
theorem ofRecord?_taggedMembers (kind : CommandKind) :
    ofRecord? kind.name (.object kind.taggedMembers) = some kind := by
  cases kind with
  | labelStart | labelEnd | generic => rfl
  | labelLength | labelHome | fieldOrigin | fieldData =>
    simp [ofRecord?, name, taggedMembers, members, required]
  | graphicBox width height thickness color rounding =>
    have hrounding : Json.optional (fieldsOf "graphic-box") "rounding" int32?
        (.object (graphicBox width height thickness color rounding).taggedMembers) =
          some rounding :=
      optional_object (by simp [taggedMembers, members]) _ int32?_int32 fun _ => Json.noConfusion
    simp only [name, ofRecord?, hrounding]
    simp [taggedMembers, members, required, lineColor?_letter]
  | barcode orientation height readable above mode data =>
    have hmode : Json.optional (fieldsOf "barcode") "mode" string?
        (.object (barcode orientation height readable above mode data).taggedMembers) =
          some mode :=
      optional_object (by simp [taggedMembers, members]) _ string?_string fun _ => Json.noConfusion
    simp only [name, ofRecord?, hmode]
    simp [taggedMembers, members, required, orientation?_letter]
  | font face orientation height width =>
    have hwidth : Json.optional (fieldsOf "font") "width" int32?
        (.object (font face orientation height width).taggedMembers) = some width :=
      optional_object (by simp [taggedMembers, members]) _ int32?_int32 fun _ => Json.noConfusion
    simp only [name, ofRecord?, hwidth]
    simp [taggedMembers, members, required, orientation?_letter]

theorem uniqueMember?_kind (kind : CommandKind) :
    uniqueMember? kind.taggedMembers "kind" = some (some (.string kind.name)) := by
  refine uniqueMember?_cons_self ?_ _
  cases kind <;> simp [members]

theorem writable_taggedMembers {depth : Nat} (kind : CommandKind) :
    ∀ member ∈ kind.taggedMembers, Writable depth member.2 := by
  refine List.forall_mem_cons.mpr ⟨.string kind.name, ?_⟩
  cases kind with
  | labelStart | labelEnd | generic => exact List.forall_mem_nil _
  | labelLength length => exact List.forall_mem_singleton.mpr (.int32 length)
  | labelHome x y | fieldOrigin x y =>
    simp only [members, List.forall_mem_cons]
    exact ⟨.int32 x, .int32 y, List.forall_mem_nil _⟩
  | graphicBox width height thickness color rounding =>
    simp only [members, List.forall_mem_append, List.forall_mem_cons]
    exact ⟨⟨.int32 width, .int32 height, .int32 thickness, .string color.letter,
      List.forall_mem_nil _⟩, Writable.member fun n _ => .int32 n⟩
  | fieldData content closed =>
    simp only [members, List.forall_mem_cons]
    exact ⟨.string content, .bool closed, List.forall_mem_nil _⟩
  | barcode orientation height readable above mode data =>
    simp only [members, List.forall_mem_append, List.forall_mem_cons]
    exact ⟨⟨⟨.string orientation.letter, .int32 height, .bool readable, .bool above,
      List.forall_mem_nil _⟩, Writable.member fun s _ => .string s⟩, .string data,
      List.forall_mem_nil _⟩
  | font face orientation height width =>
    simp only [members, List.forall_mem_append, List.forall_mem_cons]
    exact ⟨⟨.string face, .string orientation.letter, .int32 height, List.forall_mem_nil _⟩,
      Writable.member fun n _ => .int32 n⟩

theorem othersReadable_of_writable {depth : Nat} {members : List (String × Json)}
    (h : ∀ member ∈ members, Writable depth member.2) (keys : List String) :
    othersReadable keys members := by
  refine List.all_eq_true.mpr fun (key, value) hmember => ?_
  have hvalue : value.readable := (h (key, value) hmember).readable
  simp [hvalue]

theorem ofJson?_toJson (kind : CommandKind) : ofJson? kind.toJson = some kind := by
  have hwritable : ∀ member ∈ kind.taggedMembers, Writable 0 member.2 :=
    kind.writable_taggedMembers
  have hothers := othersReadable_of_writable hwritable ["kind"]
  simp [toJson, ofJson?, uniqueMember?_kind, hothers, ofRecord?_taggedMembers]

theorem writable (kind : CommandKind) : Writable 0 kind.toJson :=
  .object (by decide) kind.writable_taggedMembers

end CommandKind

namespace Command

/-- The members of a command besides those of its kind. -/
def ownMembers (c : Command) : List (String × Json) :=
  [("code", .string c.code), ("rawText", .string c.rawText),
    ("position", c.position.toJson), ("parameters", .strings c.parameters)]

theorem toJson_eq (c : Command) : c.toJson = .object (c.ownMembers ++ c.kind.taggedMembers) :=
  rfl

/-- No kind has a field with the name of one of a command's own. -/
theorem fieldsOf_apart (c : Command) (kind : CommandKind) :
    ∀ key ∈ CommandKind.fieldsOf kind.name, key ∉ c.ownMembers.map Prod.fst := by
  cases kind <;> simp [CommandKind.fieldsOf, CommandKind.name, ownMembers]

theorem fields_apart (kind : CommandKind) :
    ∀ key ∈ fields, key ∉ kind.taggedMembers.map Prod.fst := by
  simp only [fields, List.forall_mem_cons]
  cases kind <;> simp [CommandKind.taggedMembers, CommandKind.members]

theorem writable_members {depth : Nat} {c : Command} (h : c.position.InRange)
    (hdepth : depth < maxDepth) :
    ∀ member ∈ c.ownMembers ++ c.kind.taggedMembers, Writable depth member.2 := by
  refine List.forall_mem_append.mpr ⟨?_, c.kind.writable_taggedMembers⟩
  have hparameters : Writable depth (.strings c.parameters) := .list hdepth fun s _ => .string s
  simp only [ownMembers, List.forall_mem_cons]
  exact ⟨.string c.code, .string c.rawText, Position.writable h hdepth, hparameters,
    List.forall_mem_nil _⟩

/-- A command's own fields are read from its own members. -/
theorem required_own {α : Type} {decode : Json → Option α} {c : Command} {key : String}
    {value : Json} {a : α} (hkey : key ∈ fields)
    (hvalue : uniqueMember? c.ownMembers key = some (some value))
    (hdecode : decode value = some a) :
    required fields key decode c.toJson = some a :=
  required_object ((uniqueMember?_append_left (fields_apart c.kind key hkey) _).trans hvalue)
    fields hdecode

theorem ofJson?_toJson {c : Command} (h : c.position.InRange) : ofJson? c.toJson = some c := by
  have hothers := CommandKind.othersReadable_of_writable
    (writable_members h (by decide : 0 < maxDepth)) fields
  have htag : uniqueMember? (c.ownMembers ++ c.kind.taggedMembers) "kind" =
      some (some (.string c.kind.name)) := by
    rw [uniqueMember?_append (by simp [ownMembers]), c.kind.uniqueMember?_kind]
  have hcode : required fields "code" string? c.toJson = some c.code :=
    required_own (by simp [fields]) (by simp [ownMembers]) (string?_string c.code)
  have hrawText : required fields "rawText" string? c.toJson = some c.rawText :=
    required_own (by simp [fields]) (by simp [ownMembers]) (string?_string c.rawText)
  have hposition : required fields "position" Position.ofJson? c.toJson = some c.position :=
    required_own (by simp [fields]) (by simp [ownMembers]) (Position.ofJson?_toJson h)
  have hparameters : required fields "parameters" (list? string?) c.toJson = some c.parameters :=
    required_own (by simp [fields]) (by simp [ownMembers, strings])
      (list?_array fun s _ => string?_string s)
  have hkind : CommandKind.ofRecord? c.kind.name c.toJson = some c.kind := by
    rw [toJson_eq, CommandKind.ofRecord?_append (c.fieldsOf_apart c.kind),
      CommandKind.ofRecord?_taggedMembers]
  rw [toJson_eq] at hcode hrawText hposition hparameters hkind ⊢
  simp [ofJson?, hothers, htag, hcode, hrawText, hposition, hparameters, CommandKind.name?, hkind]

theorem writable {depth : Nat} {c : Command} (h : c.position.InRange)
    (hdepth : depth + 1 < maxDepth) : Writable depth c.toJson :=
  .object (by omega) (writable_members h hdepth)

end Command

/-! ## Documents -/

namespace Metadata

theorem ofJson?_toJson {m : Metadata} (h : m.InRange) : ofJson? m.toJson = some m := by
  have hsource : required fields "sourceText" string? m.toJson = some m.sourceText :=
    required_object (by simp) fields (string?_string m.sourceText)
  have herrors : required fields "errors" (list? Diagnostic.ofJson?) m.toJson = some m.errors :=
    required_object (by simp) fields (list?_array fun d hd =>
      Diagnostic.ofJson?_toJson (h d (List.mem_append_left _ hd)))
  have hwarnings : required fields "warnings" (list? Diagnostic.ofJson?) m.toJson =
      some m.warnings :=
    required_object (by simp) fields (list?_array fun d hd =>
      Diagnostic.ofJson?_toJson (h d (List.mem_append_right _ hd)))
  have hwidth : Json.optional fields "derivedLabelWidth" int32? m.toJson = some m.labelWidth :=
    optional_object (by simp) fields int32?_int32 fun _ => Json.noConfusion
  have hlength : Json.optional fields "derivedLabelLength" int32? m.toJson = some m.labelLength :=
    optional_object (by simp) fields int32?_int32 fun _ => Json.noConfusion
  rw [ofJson?, hsource, herrors, hwarnings, hwidth, hlength]
  rfl

theorem writable {depth : Nat} {m : Metadata} (h : m.InRange) (hdepth : depth + 3 < maxDepth) :
    Writable depth m.toJson := by
  have herrors : Writable (depth + 1) (.array (m.errors.map Diagnostic.toJson)) :=
    Diagnostic.writable_list (fun d hd => h d (List.mem_append_left _ hd)) hdepth
  have hwarnings : Writable (depth + 1) (.array (m.warnings.map Diagnostic.toJson)) :=
    Diagnostic.writable_list (fun d hd => h d (List.mem_append_right _ hd)) hdepth
  refine .object (by omega) ?_
  simp only [List.forall_mem_append, List.forall_mem_cons]
  exact ⟨⟨⟨.string m.sourceText, herrors, hwarnings, List.forall_mem_nil _⟩,
    Writable.member fun n _ => .int32 n⟩, Writable.member fun n _ => .int32 n⟩

end Metadata

namespace Document

theorem ofJson?_toJson {d : Document} (h : d.InRange) : ofJson? d.toJson = some d := by
  have hcommands : required fields "commands" (list? Command.ofJson?) d.toJson =
      some d.commands :=
    required_object (by simp) fields (list?_array fun c hc =>
      Command.ofJson?_toJson (h.commands c hc))
  have hmetadata : required fields "metadata" Metadata.ofJson? d.toJson = some d.metadata :=
    required_object (by simp) fields (Metadata.ofJson?_toJson h.metadata)
  rw [ofJson?, hcommands, hmetadata]
  rfl

theorem writable {d : Document} (h : d.InRange) : Writable 0 d.toJson := by
  have hcommands : Writable 1 (.array (d.commands.map Command.toJson)) :=
    .list (by decide) fun c hc => Command.writable (h.commands c hc) (by decide)
  refine .object (by decide) ?_
  simp only [List.forall_mem_cons]
  exact ⟨hcommands, Metadata.writable h.metadata (by decide), List.forall_mem_nil _⟩

end Document

/-! ## Round trips -/

/-- Documents, and each kind of value that they consist of, come back from both of their
written forms. -/
theorem json_roundTrips :
    (∀ d : Document, d.InRange → RoundTrips Document.toJson Document.ofJson? d) ∧
    (∀ c : Command, c.position.InRange → RoundTrips Command.toJson Command.ofJson? c) ∧
    (∀ kind : CommandKind, RoundTrips CommandKind.toJson CommandKind.ofJson? kind) ∧
    (∀ m : Metadata, m.InRange → RoundTrips Metadata.toJson Metadata.ofJson? m) ∧
    (∀ d : Diagnostic, d.position.InRange → RoundTrips Diagnostic.toJson Diagnostic.ofJson? d) ∧
    (∀ p : Position, p.InRange → RoundTrips Position.toJson Position.ofJson? p) :=
  ⟨fun _ h => .intro (Document.writable h) (Document.ofJson?_toJson h),
    fun _ h => .intro (Command.writable h (by decide)) (Command.ofJson?_toJson h),
    fun kind => .intro kind.writable kind.ofJson?_toJson,
    fun _ h => .intro (Metadata.writable h (by decide)) (Metadata.ofJson?_toJson h),
    fun _ h => .intro (Diagnostic.writable h (by decide)) (Diagnostic.ofJson?_toJson h),
    fun _ h => .intro (Position.writable h (by decide)) (Position.ofJson?_toJson h)⟩

/-- A label with escapes, extreme numbers and an empty map comes back, as do parts of it. -/
theorem json_roundTrips_label :
    RoundTrips Document.toJson Document.ofJson? {
      commands := [
        ⟨"FD", "^FD\"\\\x01é\r\n^FS", ⟨1, 1, 18446744073709551615⟩, ["\"\\\x01é"],
          .fieldData "\"\\\x01é" true⟩,
        ⟨"BC", "^BCR,-5", ⟨2, 4, 17⟩, ["R", "-5"], .barcode .rotated (-5) true false none "𝄞"⟩,
        ⟨"GB", "^GB", ⟨3, 1, 24⟩, [], .graphicBox (-2147483648) 2147483647 0 .white (some 8)⟩]
      metadata := {
        sourceText := "\t/"
        errors := [⟨"ZPL0001", .error, "", ⟨1, 1, 0⟩, none, some .empty⟩]
        warnings :=
          [⟨"ZPL0104", .warning, "\x1f", ⟨0, 0, 0⟩, some "", some (.ofList [("b", "a")])⟩]
        labelWidth := none
        labelLength := some (-1) } } ∧
    RoundTrips Command.toJson Command.ofJson?
      ⟨"A", "^A0N,30", ⟨1, 1, 0⟩, ["0N", "30"], .font "0" .normal 30 none⟩ ∧
    RoundTrips CommandKind.toJson CommandKind.ofJson?
      (.barcode .bottom 0 false true (some "\n") "") ∧
    RoundTrips Metadata.toJson Metadata.ofJson? ⟨"", [], [], some 100, none⟩ ∧
    RoundTrips Diagnostic.toJson Diagnostic.ofJson? ⟨"", .error, "/", ⟨1, 1, 0⟩, none, none⟩ ∧
    RoundTrips Position.toJson Position.ofJson? ⟨0, 18446744073709551615, 1⟩ := by
  have hrange : ∀ {line column offset : Nat}, line < 0x10000000000000000 ∧
      column < 0x10000000000000000 ∧ offset < 0x10000000000000000 →
      (⟨line, column, offset⟩ : Position).InRange := fun ⟨hl, hc, ho⟩ => ⟨hl, hc, ho⟩
  obtain ⟨document, command, kind, metadata, diagnostic, position⟩ := json_roundTrips
  refine ⟨document _ ⟨?_, ?_⟩, command _ ?_, kind _, metadata _ ?_, diagnostic _ ?_,
    position _ ?_⟩
  · simp only [List.forall_mem_cons]
    exact ⟨hrange (by omega), hrange (by omega), hrange (by omega), List.forall_mem_nil _⟩
  · simp only [Metadata.InRange, List.forall_mem_append, List.forall_mem_cons]
    exact ⟨⟨hrange (by omega), List.forall_mem_nil _⟩, hrange (by omega), List.forall_mem_nil _⟩
  · exact hrange (by omega)
  · exact List.forall_mem_nil _
  · exact hrange (by omega)
  · exact hrange (by omega)

end Zpl
