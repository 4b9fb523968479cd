import Mathlib.Data.List.Perm.Basic
import Zpl.Proofs.JsonRoundTrip

/-! What reading looks at. A reader of an object sees only what is found under the names of its
fields (`Reads.congr`), and where it succeeds each of them was found (`Reads.found`). The
objects of a document are such records (`read?_congr`, `found_of_read?`); that of a command has
its own fields, the name of its kind, and the fields of that kind. -/

namespace Zpl

namespace CommandKind

/-- The fields of the kind with a name that may be absent. -/
def optionalFieldsOf : String → List String
  | "graphic-box" => ["rounding"]
  | "barcode" => ["mode"]
  | "font" => ["width"]
  | _ => []

/-- The name of the kind that the members of a command tell. -/
def nameIn? (members : List (String × Json)) : Option String := do
  name? (← (← Json.uniqueMember? members "kind"))

theorem not_mem_optionalFieldsOf (name : String) :
    ∀ key ∈ "kind" :: Command.fields, key ∉ optionalFieldsOf name := by
  unfold optionalFieldsOf
  split <;> decide

end CommandKind

namespace Command

/-- A command whose kind has the given name, from the members of its object. -/
def ofMembers? (name : String) (members : List (String × Json)) : Option Command := do
  let value := Json.object members
  return {
    code := ← Json.required fields "code" Json.string? value
    rawText := ← Json.required fields "rawText" Json.string? value
    position := ← Json.required fields "position" Position.ofJson? value
    parameters := ← Json.required fields "parameters" (Json.list? Json.string?) value
    kind := ← CommandKind.ofRecord? name value }

theorem ofJson?_object (members : List (String × Json)) :
    ofJson? (.object members) =
      if CommandKind.othersReadable fields members then
        (CommandKind.nameIn? members).bind fun name => ofMembers? name members
      else none := by
  unfold ofJson? CommandKind.nameIn? ofMembers?
  cases hreadable : CommandKind.othersReadable fields members with
  | false => simp [hreadable]
  | true => simp [hreadable, Option.bind_assoc]

end Command

namespace Json

/-- The objects that a document is written with, and lists of them. -/
inductive Shape where
  | position
  /-- A map, whose keys are free. -/
  | context
  | diagnostic
  | command
  | metadata
  | document
  | list (item : Shape)

namespace Shape

def Value : Shape → Type
  | position => Position
  | context => KeyMap String
  | diagnostic => Diagnostic
  | command => Command
  | metadata => Metadata
  | document => Document
  | list item => List item.Value

def read? : (shape : Shape) → Json → Option shape.Value
  | position => Position.ofJson?
  | context => KeyMap.ofJson?
  | diagnostic => Diagnostic.ofJson?
  | command => Command.ofJson?
  | metadata => Metadata.ofJson?
  | document => Document.ofJson?
  | list item => list? item.read?

/-- The names of the fields of an object. Those of a command depend on its kind. -/
def fields (members : List (String × Json)) : Shape → List String
  | position => Position.fields
  | diagnostic => Diagnostic.fields
  | command =>
    Command.fields ++ "kind" :: ((CommandKind.nameIn? members).elim [] CommandKind.fieldsOf)
  | metadata => Metadata.fields
  | document => Document.fields
  | context | list _ => []

/-- The fields that may be absent. -/
def optionalFields (members : List (String × Json)) : Shape → List String
  | diagnostic => ["suggestion", "context"]
  | command => (CommandKind.nameIn? members).elim [] CommandKind.optionalFieldsOf
  | metadata => ["derivedLabelWidth", "derivedLabelLength"]
  | position | context | document | list _ => []

/-- The shape of the value of a field, if it has objects in it. -/
def part? : Shape → String → Option Shape
  | diagnostic, "position" => some position
  | diagnostic, "context" => some context
  | command, "position" => some position
  | metadata, "errors" => some (list diagnostic)
  | metadata, "warnings" => some (list diagnostic)
  | document, "commands" => some (list command)
  | document, "metadata" => some metadata
  | _, _ => none

end Shape

/-! ## Members under a name -/

section Members

variable {key name : String} {value : Json} {ms ns front back : List (String × Json)}

/-- What is found under a name does not depend on the order of the members. -/
theorem uniqueMember?_perm (h : ms.Perm ns) (key : String) :
    uniqueMember? ns key = uniqueMember? ms key := by
  have hfilter : (ms.filter (·.1 == key)).Perm (ns.filter (·.1 == key)) := h.filter _
  unfold uniqueMember?
  generalize ms.filter (·.1 == key) = found, ns.filter (·.1 == key) = found' at hfilter
  match found, found', hfilter with
  | [], _, hnil =>
    obtain rfl := List.nil_perm.mp hnil
    rfl
  | [member], _, hone =>
    obtain rfl := List.singleton_perm.mp hone
    rfl
  | _ :: _ :: _, [], hmany => exact absurd hmany.length_eq (by simp)
  | _ :: _ :: _, [_], hmany => exact absurd hmany.length_eq (by simp)
  | _ :: _ :: _, _ :: _ :: _, _ => rfl

theorem uniqueMember?_middle (key name : String) (value : Json)
    (front back : List (String × Json)) :
    uniqueMember? (front ++ (name, value) :: back) key =
      uniqueMember? ((name, value) :: (front ++ back)) key :=
  uniqueMember?_perm List.perm_middle.symm key

theorem uniqueMember?_middle_ne (h : name ≠ key) (value : Json)
    (front back : List (String × Json)) :
    uniqueMember? (front ++ (name, value) :: back) key = uniqueMember? (front ++ back) key := by
  rw [uniqueMember?_middle, uniqueMember?_cons_ne h]

theorem uniqueMember?_of_count (h : 1 < (ms.map Prod.fst).count key) :
    uniqueMember? ms key = none := by
  have hlength : 1 < (ms.filter (·.1 == key)).length := by
    rwa [List.count, List.countP_map, List.countP_eq_length_filter] at h
  unfold uniqueMember?
  generalize ms.filter (·.1 == key) = found at hlength
  match found with
  | [] | [_] => exact absurd hlength (by simp)
  | _ :: _ :: _ => rfl

theorem uniqueMember?_cons_mem (h : key ∈ ms.map Prod.fst) (value : Json) :
    uniqueMember? ((key, value) :: ms) key = none := by
  refine uniqueMember?_of_count ?_
  rw [List.map_cons, List.count_cons_self]
  exact Nat.succ_lt_succ (List.count_pos_iff.mpr h)

/-- What is found under a name is found once. -/
theorem not_mem_of_uniqueMember?_middle {found : Option Json}
    (h : uniqueMember? (front ++ (key, value) :: back) key = some found) :
    key ∉ (front ++ back).map Prod.fst := by
  intro hmem
  rw [uniqueMember?_middle, uniqueMember?_cons_mem hmem] at h
  cases h

theorem uniqueMember?_of_mem {found : Option Json} (h : (key, value) ∈ ms)
    (hfound : uniqueMember? ms key = some found) : found = some value := by
  obtain ⟨front, back, rfl⟩ := List.append_of_mem h
  have honce := not_mem_of_uniqueMember?_middle hfound
  rw [uniqueMember?_middle, uniqueMember?_cons_self honce] at hfound
  exact (Option.some.inj hfound).symm

theorem nameIn?_middle (h : key ≠ "kind") (value : Json) (front back : List (String × Json)) :
    CommandKind.nameIn? (front ++ (key, value) :: back) = CommandKind.nameIn? (front ++ back) := by
  rw [CommandKind.nameIn?, CommandKind.nameIn?, uniqueMember?_middle_ne h]

end Members

/-! ## Readers of fields -/

namespace Shape

variable {shape : Shape} {α β : Type} {ms ns : List (String × Json)}

/-- What is found under the name of a field before and after a change that its reader does not
notice. -/
inductive Kept (shape : Shape) (key : String) (absentable : Prop) :
    Option (Option Json) → Option (Option Json) → Prop where
  | same (found) : Kept shape key absentable found found
  | nulled : absentable → Kept shape key absentable (some none) (some (some .null))
  | part {part v w} : shape.part? key = some part → v ≠ .null → w ≠ .null →
      part.read? w = part.read? v → Kept shape key absentable (some (some v)) (some (some w))

/-- What is found under the name of a field that was read. -/
inductive Found (shape : Shape) (key : String) (absentable : Prop) :
    Option (Option Json) → Prop where
  | absent : absentable → Found shape key absentable (some none)
  | present {v} : (∀ part, shape.part? key = some part → v ≠ .null → part.read? v ≠ none) →
      Found shape key absentable (some (some v))

/-- A way to read the value of a field: one with objects in it is read as their shape. -/
structure Decodes (shape : Shape) (key : String) (decode : Json → Option α) : Prop where
  congr : ∀ {part v w}, shape.part? key = some part → part.read? w = part.read? v →
    decode w = decode v
  part_read : ∀ {part v}, shape.part? key = some part → decode v ≠ none → part.read? v ≠ none

theorem Decodes.plain {key : String} (h : shape.part? key = none) (decode : Json → Option α) :
    Decodes shape key decode where
  congr hpart := by rw [h] at hpart; cases hpart
  part_read hpart := by rw [h] at hpart; cases hpart

theorem Decodes.part {key : String} (part : Shape) (h : shape.part? key = some part) :
    Decodes shape key part.read? where
  congr hother hread := by
    obtain rfl := Option.some.inj (h.symm.trans hother)
    exact hread
  part_read hother hsome := by
    obtain rfl := Option.some.inj (h.symm.trans hother)
    exact hsome

/-- A reader of members that looks at those with the given keys only, and at each of them. Some
of them may be absent. -/
structure Reads (shape : Shape) (absentable keys : List String)
    (read : List (String × Json) → Option α) : Prop where
  congr : ∀ {ms ns}, (∀ key ∈ keys, Kept shape key (key ∈ absentable) (uniqueMember? ms key)
    (uniqueMember? ns key)) → read ns = read ms
  found : ∀ {ms a}, read ms = some a →
    ∀ key ∈ keys, Found shape key (key ∈ absentable) (uniqueMember? ms key)

namespace Reads

variable {absentable keys keys' : List String} {key : String}

theorem pure (a : α) : Reads shape absentable [] fun _ => some a where
  congr _ := rfl
  found _ := List.forall_mem_nil _

theorem nothing : Reads (α := α) shape absentable keys fun _ => none where
  congr _ := rfl
  found hread := by cases hread

theorem bind {first : List (String × Json) → Option β}
    {rest : β → List (String × Json) → Option α} (hfirst : Reads shape absentable keys first)
    (hrest : ∀ b, Reads shape absentable keys' (rest b)) :
    Reads shape absentable (keys ++ keys') fun ms => first ms >>= fun b => rest b ms where
  congr hkept := by
    obtain ⟨hkept, hkept'⟩ := List.forall_mem_append.mp hkept
    simp only [hfirst.congr hkept, fun b => (hrest b).congr hkept']
  found hread := by
    obtain ⟨b, hb, hread⟩ := Option.bind_eq_some_iff.mp hread
    exact List.forall_mem_append.mpr ⟨hfirst.found hb, (hrest b).found hread⟩

theorem map {first : List (String × Json) → Option β} (hfirst : Reads shape absentable keys first)
    (f : β → α) : Reads shape absentable keys fun ms => first ms >>= fun b => some (f b) := by
  simpa using hfirst.bind fun b => pure (f b)

theorem required {names : List String} {decode : Json → Option β}
    (hdecode : Decodes shape key decode) (hneeded : key ∉ absentable) :
    Reads shape absentable [key] fun ms => Json.required names key decode (.object ms) where
  congr {ms ns} hkept := by
    have hkept := List.forall_mem_singleton.mp hkept
    rw [Json.required, Json.required, field?_object, field?_object]
    generalize uniqueMember? ms key = found, uniqueMember? ns key = found' at hkept
    cases hkept with
    | same => rfl
    | nulled habsent => exact absurd habsent hneeded
    | part hpart _ _ hread => exact hdecode.congr hpart hread
  found {ms b} hread := by
    refine List.forall_mem_singleton.mpr ?_
    rw [Json.required, field?_object] at hread
    obtain ⟨found, hfound, hread⟩ := Option.bind_eq_some_iff.mp hread
    obtain ⟨v, rfl, hread⟩ := Option.bind_eq_some_iff.mp hread
    rw [hfound]
    exact .present fun part hpart _ =>
      hdecode.part_read hpart (Option.ne_none_iff_exists'.mpr ⟨b, hread⟩)

theorem optional {names : List String} {decode : Json → Option β}
    (hdecode : Decodes shape key decode) (habsentable : key ∈ absentable) :
    Reads shape absentable [key] fun ms => Json.optional names key decode (.object ms) where
  congr {ms ns} hkept := by
    have hkept := List.forall_mem_singleton.mp hkept
    rw [Json.optional, Json.optional, field?_object, field?_object]
    generalize uniqueMember? ms key = found, uniqueMember? ns key = found' at hkept
    cases hkept with
    | same => rfl
    | nulled => rfl
    | part hpart _ _ hread => simp [hdecode.congr hpart hread]
  found {ms b} hread := by
    refine List.forall_mem_singleton.mpr ?_
    rw [Json.optional, field?_object] at hread
    obtain ⟨found, hfound, hread⟩ := Option.bind_eq_some_iff.mp hread
    rw [hfound]
    cases found with
    | none => exact .absent habsentable
    | some v =>
      refine .present fun part hpart hnull => hdecode.part_read hpart fun hnone => ?_
      simp [hnone] at hread

/-- A field in front of others. -/
theorem field {names : List String} {decode : Json → Option β}
    {rest : β → List (String × Json) → Option α} (hdecode : Decodes shape key decode)
    (hneeded : key ∉ absentable) (hrest : ∀ b, Reads shape absentable keys (rest b)) :
    Reads shape absentable (key :: keys) fun ms =>
      Json.required names key decode (.object ms) >>= fun b => rest b ms :=
  (required hdecode hneeded).bind hrest

theorem optionalField {names : List String} {decode : Json → Option β}
    {rest : Option β → List (String × Json) → Option α} (hdecode : Decodes shape key decode)
    (habsentable : key ∈ absentable) (hrest : ∀ b, Reads shape absentable keys (rest b)) :
    Reads shape absentable (key :: keys) fun ms =>
      Json.optional names key decode (.object ms) >>= fun b => rest b ms :=
  (optional hdecode habsentable).bind hrest

end Reads

/-! ## The records of a document -/

theorem reads_position :
    Reads position [] Position.fields fun ms => Position.ofJson? (.object ms) :=
  .field (.plain rfl _) List.not_mem_nil fun _ =>
  .field (.plain rfl _) List.not_mem_nil fun _ =>
  .field (.plain rfl _) List.not_mem_nil fun _ => .pure _

theorem reads_diagnostic :
    Reads diagnostic ["suggestion", "context"] Diagnostic.fields
      fun ms => Diagnostic.ofJson? (.object ms) :=
  .field (.plain rfl _) (by decide) fun _ =>
  .field (.plain rfl _) (by decide) fun _ =>
  .field (.plain rfl _) (by decide) fun _ =>
  .field (.part position rfl) (by decide) fun _ =>
  .optionalField (.plain rfl _) (by decide) fun _ =>
  .optionalField (.part context rfl) (by decide) fun _ => .pure _

theorem reads_metadata :
    Reads metadata ["derivedLabelWidth", "derivedLabelLength"] Metadata.fields
      fun ms => Metadata.ofJson? (.object ms) :=
  .field (.plain rfl _) (by decide) fun _ =>
  .field (.part (list diagnostic) rfl) (by decide) fun _ =>
  .field (.part (list diagnostic) rfl) (by decide) fun _ =>
  .optionalField (.plain rfl _) (by decide) fun _ =>
  .optionalField (.plain rfl _) (by decide) fun _ => .pure _

theorem reads_document :
    Reads document [] Document.fields fun ms => Document.ofJson? (.object ms) :=
  .field (.part (list command) rfl) List.not_mem_nil fun _ =>
  .field (.part metadata rfl) List.not_mem_nil fun _ => .pure _

/-- The fields of a kind are read as a record of their own. -/
theorem reads_kind (name : String) :
    Reads command (CommandKind.optionalFieldsOf name) (CommandKind.fieldsOf name)
      fun ms => CommandKind.ofRecord? name (.object ms) := by
  unfold CommandKind.ofRecord?
  split
  -- the fields of each kind are read in their order
  all_goals
    repeat' first
      | exact .pure _
      | exact .nothing
      | refine .field (.plain rfl _) (by decide) fun _ => ?_
      | refine .optionalField (.plain rfl _) (by decide) fun _ => ?_

/-- A command whose kind has the given name. -/
theorem reads_named (name : String) :
    Reads command (CommandKind.optionalFieldsOf name) (Command.fields ++ CommandKind.fieldsOf name)
      (Command.ofMembers? name) := by
  have hown := CommandKind.not_mem_optionalFieldsOf name
  simp only [Command.fields, List.forall_mem_cons] at hown
  obtain ⟨-, hcode, hrawText, hposition, hparameters, -⟩ := hown
  exact
    .field (.plain rfl _) hcode fun _ =>
    .field (.plain rfl _) hrawText fun _ =>
    .field (.part position rfl) hposition fun _ =>
    .field (.plain rfl _) hparameters fun _ => (reads_kind name).map _

/-- Under the name of each field, the second list of members has what the first one has. -/
structure Agrees (shape : Shape) (ms ns : List (String × Json)) : Prop where
  kept : ∀ key ∈ shape.fields ms,
    Kept shape key (key ∈ shape.optionalFields ms) (uniqueMember? ms key) (uniqueMember? ns key)
  readable : shape = command → CommandKind.othersReadable Command.fields ns =
    CommandKind.othersReadable Command.fields ms

theorem Agrees.nameIn?_eq (h : Agrees command ms ns) :
    CommandKind.nameIn? ns = CommandKind.nameIn? ms := by
  have hkept := h.kept "kind" (by simp [fields])
  unfold CommandKind.nameIn?
  generalize uniqueMember? ms "kind" = found, uniqueMember? ns "kind" = found' at hkept
  cases hkept with
  | same => rfl
  | nulled => rfl
  | part hpart => exact absurd hpart (by simp [part?])

/-- Two objects that agree in their fields are read as the same value. -/
theorem Agrees.read?_eq (h : Agrees shape ms ns) (hfree : shape ≠ context) :
    shape.read? (.object ns) = shape.read? (.object ms) := by
  cases shape with
  | position => exact reads_position.congr h.kept
  | context => exact absurd rfl hfree
  | diagnostic => exact reads_diagnostic.congr h.kept
  | command =>
    show Command.ofJson? (.object ns) = Command.ofJson? (.object ms)
    rw [Command.ofJson?_object, Command.ofJson?_object, h.readable rfl, h.nameIn?_eq]
    -- both tell the same kind, and with it which of their members are fields
    have hkept := h.kept
    simp only [fields, optionalFields] at hkept
    cases hname : CommandKind.nameIn? ms with
    | none => rfl
    | some name =>
      simp only [hname, Option.elim_some, List.forall_mem_append, List.forall_mem_cons] at hkept
      obtain ⟨hown, -, hkind⟩ := hkept
      rw [Option.bind_some, Option.bind_some,
        (reads_named name).congr (List.forall_mem_append.mpr ⟨hown, hkind⟩)]
  | metadata => exact reads_metadata.congr h.kept
  | document => exact reads_document.congr h.kept
  | list => rfl

theorem found_kind {name : String} (h : CommandKind.nameIn? ms = some name) (absentable : Prop) :
    Found command "kind" absentable (uniqueMember? ms "kind") := by
  obtain ⟨found, hfound, h⟩ := Option.bind_eq_some_iff.mp h
  obtain ⟨v, rfl, -⟩ := Option.bind_eq_some_iff.mp h
  rw [hfound]
  exact .present fun part hpart => by cases hpart

/-- An object that is read has each of its fields that may not be absent, and none of them
twice. -/
theorem found_of_read? (h : shape.read? (.object ms) ≠ none) : ∀ key ∈ shape.fields ms,
    Found shape key (key ∈ shape.optionalFields ms) (uniqueMember? ms key) := by
  obtain ⟨a, h⟩ := Option.ne_none_iff_exists'.mp h
  cases shape with
  | position => exact reads_position.found h
  | context | list => exact List.forall_mem_nil _
  | diagnostic => exact reads_diagnostic.found h
  | command =>
    rw [show read? command (.object ms) = _ from Command.ofJson?_object ms] at h
    split at h
    · obtain ⟨name, hname, h⟩ := Option.bind_eq_some_iff.mp h
      obtain ⟨hown, hkind⟩ := List.forall_mem_append.mp ((reads_named name).found h)
      simp only [fields, optionalFields, hname, Option.elim_some, List.forall_mem_append,
        List.forall_mem_cons]
      exact ⟨hown, found_kind hname _, hkind⟩
    · cases h
  | metadata => exact reads_metadata.found h
  | document => exact reads_document.found h

theorem read?_eq_none {key : String} (hfield : key ∈ shape.fields ms)
    (h : ¬ Found shape key (key ∈ shape.optionalFields ms) (uniqueMember? ms key)) :
    shape.read? (.object ms) = none :=
  Classical.byContradiction fun hread => h (found_of_read? hread key hfield)

/-- What has a shape is the value of a field, and in a command of one of its own. -/
theorem mem_fields_of_part? {key : String} {part : Shape} (h : shape.part? key = some part)
    (ms : List (String × Json)) :
    key ∈ shape.fields ms ∧ (shape = command → key ∈ Command.fields) := by
  unfold part? at h
  split at h <;> cases h <;>
    simp [fields, Command.fields, Diagnostic.fields, Metadata.fields, Document.fields]

/-- An object is not read if an object in it is not. -/
theorem read?_eq_none_of_part {part : Shape} {key : String} {v : Json}
    (hpart : shape.part? key = some part) (hmem : (key, v) ∈ ms) (hnull : v ≠ .null)
    (hread : part.read? v = none) : shape.read? (.object ms) = none := by
  refine read?_eq_none (mem_fields_of_part? hpart ms).1 fun hfound => ?_
  generalize hunique : uniqueMember? ms key = found at hfound
  cases hfound with
  | absent => cases uniqueMember?_of_mem hmem hunique
  | present hparts =>
    obtain rfl := Option.some.inj (uniqueMember?_of_mem hmem hunique)
    exact hparts part hpart hnull hread

theorem read?_eq_none_of_item {item : Shape} {items : List Json} {v : Json} (hmem : v ∈ items)
    (hread : item.read? v = none) : (list item).read? (.array items) = none := by
  obtain ⟨front, back, rfl⟩ := List.append_of_mem hmem
  show list? _ _ = none
  simp [list?, hread]

theorem kind_not_mem_optionalFields (ms : List (String × Json)) :
    "kind" ∉ command.optionalFields ms := by
  unfold optionalFields
  cases CommandKind.nameIn? ms with
  | none => exact List.not_mem_nil
  | some name => exact CommandKind.not_mem_optionalFieldsOf name _ List.mem_cons_self

/-- A member changes nothing about whether its own name is that of a field. -/
theorem mem_fields_middle (key : String) (value : Json) (front back : List (String × Json)) :
    (key ∈ shape.fields (front ++ (key, value) :: back) ↔ key ∈ shape.fields (front ++ back)) ∧
    (key ∈ shape.optionalFields (front ++ (key, value) :: back) ↔
      key ∈ shape.optionalFields (front ++ back)) := by
  cases shape with
  | command =>
    obtain rfl | hne := Decidable.eq_or_ne key "kind"
    · simp [fields, kind_not_mem_optionalFields]
    · have hname := nameIn?_middle hne value front back
      simp [fields, optionalFields, hname]
  | _ => exact ⟨.rfl, .rfl⟩

end Shape
end Json

/-! ## Maps -/

/-- A map is read from its entries in any order. -/
theorem KeyMap.ofJson?_perm {m : KeyMap String} {ms : List (String × Json)}
    (h : ms.Perm (m.entries.map fun (key, value) => (key, .string value))) :
    ofJson? (.object ms) = some m := by
  have hcomp : Relation.Comp (fun ms es => ms = es.map fun (key, value) => (key, Json.string value))
      List.Perm ms m.entries := by
    rw [List.eq_map_comp_perm]
    exact h
  obtain ⟨entries, rfl, hperm⟩ := hcomp
  rw [ofJson?, Json.mapM_map_eq_some]
  · exact congrArg some (ofList_eq_of_perm hperm)
  · exact fun _ _ => rfl

end Zpl
