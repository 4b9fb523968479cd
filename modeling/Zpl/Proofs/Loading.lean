import Mathlib.Logic.Relation
import Zpl.Proofs.Shape

/-! Loading a document that was written differently. The objects of a document may list their
members in any order, hold members that are no fields, and name absent fields with null
(`Shape.Restates`): each such change leaves what is read as it was (`Restates.read?_eq`). The
keys of a map are free, and it is read in any order because they differ (`Shape.Listed`). A
member that is missing or repeated anywhere (`Shape.Faulty`) leaves nothing to read
(`Faulty.read?_eq_none`). -/

namespace Zpl
namespace Json

/-- A value without parts. One that cannot be read is kept as its text. -/
def IsScalar : Json → Prop
  | .array _ | .object _ => False
  | .null | .bool _ | .number _ | .decimal _ | .string _ | .unreadable _ => True

namespace Shape

/-- One change to how a value is written, in it or in one of its parts: members in another
order, a member that is no field, or an absent field as null. All members of a command are read,
since its kind decides later which of them are fields. -/
inductive Restates : Shape → Json → Json → Prop where
  | permuted {shape ms ns} : ms.Perm ns → Restates shape (.object ms) (.object ns)
  | added {shape front back key value} : shape ≠ context → key ∉ shape.fields (front ++ back) →
      value.IsScalar → (shape = command → value.readable) →
      Restates shape (.object (front ++ back)) (.object (front ++ (key, value) :: back))
  | nulled {shape front back key} : key ∈ shape.optionalFields (front ++ back) →
      key ∉ (front ++ back).map Prod.fst →
      Restates shape (.object (front ++ back)) (.object (front ++ (key, .null) :: back))
  | part {shape part front back key v w} : shape.part? key = some part → Restates part v w →
      Restates shape (.object (front ++ (key, v) :: back)) (.object (front ++ (key, w) :: back))
  | item {item front back v w} : Restates item v w →
      Restates (list item) (.array (front ++ v :: back)) (.array (front ++ w :: back))

/-- The maps in a value are listings of maps, in any order: no key of theirs repeats. -/
inductive Listed : Shape → Json → Prop where
  | null {shape} : Listed shape .null
  | context {m : KeyMap String} {ms} :
      ms.Perm (m.entries.map fun (key, value) => (key, .string value)) →
      Listed context (.object ms)
  | object {shape ms} : shape ≠ .context →
      (∀ member ∈ ms, ∀ part, shape.part? member.1 = some part → Listed part member.2) →
      Listed shape (.object ms)
  | list {item items} : (∀ value ∈ items, Listed item value) → Listed (list item) (.array items)

/-- One fault put into a value, in it or in one of its parts: a member that has to be there is
left out, or one that is known is repeated. -/
inductive Spoils : Shape → Json → Json → Prop where
  | leftOut {shape front back key value} : key ∈ shape.fields (front ++ (key, value) :: back) →
      key ∉ shape.optionalFields (front ++ (key, value) :: back) →
      Spoils shape (.object (front ++ (key, value) :: back)) (.object (front ++ back))
  | repeated {shape front back key value} : key ∈ shape.fields (front ++ back) →
      key ∈ (front ++ back).map Prod.fst →
      Spoils shape (.object (front ++ back)) (.object (front ++ (key, value) :: back))
  | part {shape part front back key v w} : shape.part? key = some part → Spoils part v w →
      Spoils shape (.object (front ++ (key, v) :: back)) (.object (front ++ (key, w) :: back))
  | item {item front back v w} : Spoils item v w →
      Spoils (list item) (.array (front ++ v :: back)) (.array (front ++ w :: back))

/-- A member that has to be there is missing in a value or in one of its parts, or one that is
known is repeated. -/
inductive Faulty : Shape → Json → Prop where
  | missing {shape ms key} : key ∈ shape.fields ms → key ∉ shape.optionalFields ms →
      key ∉ ms.map Prod.fst → Faulty shape (.object ms)
  | repeated {shape ms key} : key ∈ shape.fields ms → 1 < (ms.map Prod.fst).count key →
      Faulty shape (.object ms)
  | part {shape part ms key v} : shape.part? key = some part → (key, v) ∈ ms → Faulty part v →
      Faulty shape (.object ms)
  | item {item items v} : v ∈ items → Faulty item v → Faulty (list item) (.array items)

/-! ## Written documents -/

theorem Listed.plain {shape : Shape} {key : String} {v : Json} (h : shape.part? key = none) :
    ∀ part, shape.part? key = some part → Listed part v := fun _ hpart => by
  rw [h] at hpart
  cases hpart

theorem Listed.part {shape item : Shape} {key : String} {v : Json}
    (h : shape.part? key = some item) (hv : Listed item v) :
    ∀ part, shape.part? key = some part → Listed part v := fun _ hother => by
  obtain rfl := Option.some.inj (h.symm.trans hother)
  exact hv

theorem Listed.map {α : Type} {item : Shape} {encode : α → Json}
    (h : ∀ a, Listed item (encode a)) (items : List α) :
    Listed (.list item) (.array (items.map encode)) :=
  .list (List.forall_mem_map.mpr fun a _ => h a)

end Shape

end Json

open Json Shape

theorem Position.listed (p : Position) : Listed .position p.toJson :=
  .object nofun fun _ _ _ hpart => by cases hpart

theorem Diagnostic.listed (d : Diagnostic) : Listed .diagnostic d.toJson := by
  refine .object nofun ?_
  simp only [List.forall_mem_append, List.forall_mem_cons]
  exact ⟨⟨⟨.plain rfl, .plain rfl, .plain rfl, .part rfl d.position.listed,
    List.forall_mem_nil _⟩, forall_mem_member? fun _ _ => .plain rfl⟩,
    forall_mem_member? fun _ _ => .part rfl (.context .rfl)⟩

theorem Command.listed (c : Command) : Listed .command c.toJson := by
  refine .object nofun (List.forall_mem_append.mpr ⟨?_, fun member hmember part hpart => ?_⟩)
  · simp only [List.forall_mem_cons]
    exact ⟨.plain rfl, .plain rfl, .part rfl c.position.listed, .plain rfl,
      List.forall_mem_nil _⟩
  · have hown := (mem_fields_of_part? hpart []).2 rfl
    exact absurd (List.mem_map_of_mem hmember) (fields_apart c.kind _ hown)

theorem Metadata.listed (m : Metadata) : Listed .metadata m.toJson := by
  refine .object nofun ?_
  simp only [List.forall_mem_append, List.forall_mem_cons]
  exact ⟨⟨⟨.plain rfl, .part rfl (.map Diagnostic.listed m.errors),
    .part rfl (.map Diagnostic.listed m.warnings), List.forall_mem_nil _⟩,
    forall_mem_member? fun _ _ => .plain rfl⟩, forall_mem_member? fun _ _ => .plain rfl⟩

theorem Document.listed (d : Document) : Listed .document d.toJson := by
  refine .object nofun ?_
  simp only [List.forall_mem_cons]
  exact ⟨.part rfl (.map Command.listed d.commands), .part rfl d.metadata.listed,
    List.forall_mem_nil _⟩

namespace Json.Shape

variable {shape item : Shape} {ms ns front back : List (String × Json)} {key : String} {v w : Json}

/-! ## Changes that are not noticed -/

theorem forall_mem_middle {α : Type} {p : α → Prop} {a : α} {front back : List α} :
    (∀ b ∈ front ++ a :: back, p b) ↔ p a ∧ ∀ b ∈ front ++ back, p b := by
  simp only [List.perm_middle.mem_iff, List.forall_mem_cons]

namespace Restates

theorem ne_null (h : Restates shape v w) : v ≠ .null ∧ w ≠ .null := by
  cases h <;> exact ⟨nofun, nofun⟩

theorem listed (h : Restates shape v w) (hv : Listed shape v) : Listed shape w := by
  induction h with
  | permuted hperm =>
    cases hv with
    | context hlisting => exact .context (hperm.symm.trans hlisting)
    | object hfree hparts => exact .object hfree fun m hm => hparts m (hperm.mem_iff.mpr hm)
  | added hfree hkey =>
    cases hv with
    | context => exact absurd rfl hfree
    | object _ hparts =>
      refine .object hfree (forall_mem_middle.mpr ⟨fun part hpart => ?_, hparts⟩)
      exact absurd (mem_fields_of_part? hpart _).1 hkey
  | nulled hkey =>
    cases hv with
    | context => exact absurd hkey List.not_mem_nil
    | object hfree hparts =>
      exact .object hfree (forall_mem_middle.mpr ⟨fun _ _ => .null, hparts⟩)
  | @part shape part front back key v w hpart _ ih =>
    cases hv with
    | context => cases hpart
    | object hfree hparts =>
      obtain ⟨hold, hothers⟩ := forall_mem_middle.mp hparts
      have hnew : ∀ other, shape.part? key = some other → Listed other w :=
        .part hpart (ih (hold _ hpart))
      exact .object hfree (forall_mem_middle.mpr ⟨hnew, hothers⟩)
  | item _ ih =>
    cases hv with
    | list hitems =>
      obtain ⟨hold, hothers⟩ := forall_mem_middle.mp hitems
      exact .list (forall_mem_middle.mpr ⟨ih hold, hothers⟩)

theorem read?_eq (h : Restates shape v w) (hv : Listed shape v) :
    shape.read? w = shape.read? v := by
  induction h with
  | permuted hperm =>
    cases hv with
    | context hlisting =>
      exact (KeyMap.ofJson?_perm (hperm.symm.trans hlisting)).trans
        (KeyMap.ofJson?_perm hlisting).symm
    | object hfree =>
      refine Agrees.read?_eq ⟨fun key _ => ?_, fun _ => hperm.symm.all_eq⟩ hfree
      rw [uniqueMember?_perm hperm]
      exact .same _
  | @added shape front back name value hfree hkey hscalar hreadable =>
    refine Agrees.read?_eq ⟨fun key hfield => ?_, fun hcommand => ?_⟩ hfree
    · rw [uniqueMember?_middle_ne fun (heq : name = key) => hkey (heq ▸ hfield)]
      exact .same _
    · simp [CommandKind.othersReadable, hreadable hcommand]
  | @nulled shape front back name hkey hnew =>
    have hfree : shape ≠ .context := fun heq => by
      subst heq
      exact absurd hkey List.not_mem_nil
    refine Agrees.read?_eq ⟨fun key hfield => ?_, fun _ => ?_⟩ hfree
    · obtain rfl | hne := Decidable.eq_or_ne key name
      · rw [uniqueMember?_eq_none hnew, uniqueMember?_middle, uniqueMember?_cons_self hnew]
        exact .nulled hkey
      · rw [uniqueMember?_middle_ne hne.symm]
        exact .same _
    · simp [CommandKind.othersReadable, Json.readable]
  | @part shape part front back name v w hpart hchange ih =>
    cases hv with
    | context => cases hpart
    | object hfree hparts =>
      have hread := ih (hparts (name, v) (by simp) part hpart)
      refine Agrees.read?_eq ⟨fun key hfield => ?_, fun hcommand => ?_⟩ hfree
      · obtain rfl | hne := Decidable.eq_or_ne key name
        · rw [uniqueMember?_middle, uniqueMember?_middle]
          -- a name that another member has is found in neither object
          by_cases hmem : key ∈ (front ++ back).map Prod.fst
          · rw [uniqueMember?_cons_mem hmem, uniqueMember?_cons_mem hmem]
            exact .same _
          · rw [uniqueMember?_cons_self hmem, uniqueMember?_cons_self hmem]
            exact .part hpart hchange.ne_null.1 hchange.ne_null.2 hread
        · rw [uniqueMember?_middle_ne hne.symm, uniqueMember?_middle_ne hne.symm]
          exact .same _
      · have hown := (mem_fields_of_part? hpart []).2 hcommand
        simp [CommandKind.othersReadable, hown]
  | item _ ih =>
    cases hv with
    | list hitems =>
      have hread := ih (hitems _ (by simp))
      show list? _ _ = list? _ _
      simp only [list?, List.mapM_append, List.mapM_cons, hread]

end Restates

/-- A value that was changed any number of times is read as it was before. -/
theorem Restates.run (h : Relation.ReflTransGen (Restates shape) v w) (hv : Listed shape v) :
    Listed shape w ∧ shape.read? w = shape.read? v := by
  induction h with
  | refl => exact ⟨hv, rfl⟩
  | tail _ hchange ih => exact ⟨hchange.listed ih.1, (hchange.read?_eq ih.1).trans ih.2⟩

/-! ## Faults -/

namespace Faulty

theorem ne_null (h : Faulty shape v) : v ≠ .null := by
  cases h <;> nofun

theorem read?_eq_none (h : Faulty shape v) : shape.read? v = none := by
  induction h with
  | missing hfield hneeded hnot =>
    refine Shape.read?_eq_none hfield fun hfound => ?_
    rw [uniqueMember?_eq_none hnot] at hfound
    cases hfound with
    | absent habsentable => exact hneeded habsentable
  | repeated hfield htwice =>
    refine Shape.read?_eq_none hfield fun hfound => ?_
    rw [uniqueMember?_of_count htwice] at hfound
    cases hfound
  | part hpart hmem hfaulty ih => exact read?_eq_none_of_part hpart hmem hfaulty.ne_null ih
  | item hmem _ ih => exact read?_eq_none_of_item hmem ih

end Faulty

theorem Spoils.ne_null (h : Spoils shape v w) : v ≠ .null := by
  cases h <;> nofun

/-- In what is read, a member left out is missing, and one added is repeated. -/
theorem Spoils.faulty (h : Spoils shape v w) (hv : shape.read? v ≠ none) : Faulty shape w := by
  induction h with
  | @leftOut shape front back key value hfield hneeded =>
    obtain ⟨hfields, hoptional⟩ := mem_fields_middle key value front back
    refine .missing (hfields.mp hfield) (fun h => hneeded (hoptional.mpr h)) ?_
    -- the object was read, so the member was the only one of its name
    have hfound := found_of_read? hv key hfield
    generalize hunique : uniqueMember? _ key = found at hfound
    cases hfound <;> exact not_mem_of_uniqueMember?_middle hunique
  | @repeated shape front back key value hfield hmem =>
    refine .repeated ((mem_fields_middle key value front back).1.mpr hfield) ?_
    rw [(List.perm_middle.map Prod.fst).count_eq, List.map_cons, List.count_cons_self]
    exact Nat.succ_lt_succ (List.count_pos_iff.mpr hmem)
  | part hpart hspoils ih =>
    exact .part hpart (List.mem_append_right _ List.mem_cons_self) (ih fun hread =>
      hv (read?_eq_none_of_part hpart (List.mem_append_right _ List.mem_cons_self)
        hspoils.ne_null hread))
  | item _ ih =>
    exact .item (List.mem_append_right _ List.mem_cons_self) (ih fun hread =>
      hv (read?_eq_none_of_item (List.mem_append_right _ List.mem_cons_self) hread))

end Json.Shape

/-! ## Loading -/

namespace Document

/-- A document is loaded from every text that says it in other words: with the members of its
objects in another order, among others that are no fields, or with absent ones as null. A text
in which a member is left out that has to be there, or one is repeated, is not loaded. -/
theorem load_restated {d : Document} (h : d.InRange) {v : Json}
    (hv : Relation.ReflTransGen (Restates .document) d.toJson v) :
    (∀ text, Json.read? text = some v → (Json.read? text).bind ofJson? = some d) ∧
    (Writable 0 v → ∀ l : Layout, l.Blank →
      (Json.read? (.ofList (write l 0 v))).bind ofJson? = some d) ∧
    (∀ w, Spoils .document v w → Faulty .document w) ∧
    ∀ w, Faulty .document w → ∀ text, Json.read? text = some w →
      (Json.read? text).bind ofJson? = none := by
  have hread : ofJson? v = some d := (Restates.run hv d.listed).2.trans (ofJson?_toJson h)
  refine ⟨fun text htext => ?_, fun hwritable l hl => ?_, fun w hspoils => ?_,
    fun w hfaulty text htext => ?_⟩
  · rw [htext, Option.bind_some, hread]
  · rw [read?_write hl hwritable, Option.bind_some, hread]
  · exact hspoils.faulty (Option.ne_none_iff_exists'.mpr ⟨d, hread⟩)
  · rw [htext, Option.bind_some]
    exact hfaulty.read?_eq_none

/-- A box: the parts of its document the other way round, a field of another kind and an absent
one of its own among its members. Without its code it is no command, though its text is read. -/
theorem load_restated_box :
    let own : List (String × Json) := [("rawText", .string "^GB9"),
      ("position", .object [("line", .number 1), ("column", .number 1), ("offset", .number 0)]),
      ("parameters", .array [.string "9"])]
    let kind : List (String × Json) := [("kind", .string "graphic-box"), ("width", .number 9),
      ("height", .number 1), ("thickness", .number 1), ("color", .string "B")]
    let metadata : Json := .object [("sourceText", .string "^GB9"), ("errors", .array []),
      ("warnings", .array [])]
    let written (members : List (String × Json)) : Json :=
      .object [("metadata", metadata), ("commands", .array [.object members])]
    let v := written (kind ++ ("length", .decimal "7.5") :: ("rounding", .null) ::
      ("code", .string "GB") :: own)
    let w := written (kind ++ ("length", .decimal "7.5") :: ("rounding", .null) :: own)
    let d : Document := ⟨[⟨"GB", "^GB9", ⟨1, 1, 0⟩, ["9"], .graphicBox 9 1 1 .black none⟩],
      ⟨"^GB9", [], [], none, none⟩⟩
    (d.InRange ∧ Relation.ReflTransGen (Restates .document) d.toJson v) ∧
    (Json.read? v.compact).bind ofJson? = some d ∧
    Json.read? w.compact = some w ∧ (Json.read? w.compact).bind ofJson? = none := by
  intro own kind metadata written v w d
  have hrange : d.InRange := ⟨List.forall_mem_singleton.mpr ⟨by decide, by decide, by decide⟩,
    List.forall_mem_nil _⟩
  have hcommand : ∀ {ms ns}, Restates .command (.object ms) (.object ns) →
      Restates .document (written ms) (written ns) := fun h =>
    @Restates.part .document (.list .command) [("metadata", metadata)] [] "commands" _ _ rfl
      (@Restates.item .command [] [] _ _ h)
  have hdocument : Restates .document d.toJson (written (("code", .string "GB") :: own ++ kind)) :=
    .permuted (.swap ..)
  have hkind : Restates .document (written (("code", .string "GB") :: own ++ kind))
      (written (kind ++ ("code", .string "GB") :: own)) :=
    hcommand (.permuted List.perm_append_comm)
  have hnull : Restates .document (written (kind ++ ("code", .string "GB") :: own))
      (written (kind ++ ("rounding", .null) :: ("code", .string "GB") :: own)) :=
    hcommand (.nulled (by decide) (by decide))
  have hother : Restates .document
      (written (kind ++ ("rounding", .null) :: ("code", .string "GB") :: own)) v :=
    hcommand (.added nofun (by decide) trivial fun _ => rfl)
  have hv : Relation.ReflTransGen (Restates .document) d.toJson v :=
    .tail (.tail (.tail (.single hdocument) hkind) hnull) hother
  have hdecimal : IsDecimal ([] ++ (['7'] ++ (['.', '5'] ++ []))) :=
    .intro (.inl rfl)
      ⟨⟨List.cons_ne_nil _ _, List.forall_mem_singleton.mpr rfl⟩, fun h => nomatch h⟩
      (.digits ⟨List.cons_ne_nil _ _, List.forall_mem_singleton.mpr rfl⟩) .absent (by decide)
      (.inl (List.cons_ne_nil _ _))
  have hwritable : Writable 0 v ∧ Writable 0 w := by
    constructor
    all_goals
      repeat' first
        | exact .null
        | exact .string _
        | exact .number (by decide)
        | exact .decimal hdecimal
        | exact List.forall_mem_nil _
        | refine List.forall_mem_cons.mpr ⟨?_, ?_⟩
        | refine .array (by decide) ?_
        | refine .object (by decide) ?_
  have hspoils : Spoils .document v w :=
    @Spoils.part .document (.list .command) [("metadata", metadata)] [] "commands" _ _ rfl
      (@Spoils.item .command [] [] _ _
        (@Spoils.leftOut .command (kind ++ [("length", .decimal "7.5"), ("rounding", .null)]) own
          "code" (.string "GB") (by decide) (by decide)))
  obtain ⟨-, hloads, hfaulty, hfails⟩ := load_restated hrange hv
  have hread : Json.read? w.compact = some w := read?_write Layout.compact_blank hwritable.2
  exact ⟨⟨hrange, hv⟩, hloads hwritable.1 .compact Layout.compact_blank, hread,
    hfails w (hfaulty w hspoils) _ hread⟩

/-- A number that no double holds is not skipped in a command, though its name is no field. Nor
is half of a surrogate pair skipped in a name. -/
theorem load_unreadable :
    let front := "\x7b\"commands\":[\x7b\"code\":\"XA\",\"rawText\":\"^XA\",\"position\":" ++
      "\x7b\"line\":1,\"column\":1,\"offset\":0\x7d,\"parameters\":[],\"kind\":\"label-start\""
    let back := "\x7d],\"metadata\":\x7b\"sourceText\":\"^XA\"," ++
      "\"errors\":[],\"warnings\":[]\x7d\x7d"
    let command : Command := ⟨"XA", "^XA", ⟨1, 1, 0⟩, [], .labelStart⟩
    let d : Document := ⟨[command], ⟨"^XA", [], [], none, none⟩⟩
    d.InRange ∧ d.toJson.compact = front ++ back ∧
    "e" ∉ Shape.command.fields (command.ownMembers ++ command.kind.taggedMembers) ∧
    (Json.read? (front ++ ",\"e\":1e999" ++ back)).bind ofJson? = none ∧
    (Json.read? (front ++ ",\"\\ud800\":1" ++ back)).bind ofJson? = none := by
  have hrange : (⟨1, 1, 0⟩ : Position).InRange := ⟨by decide, by decide, by decide⟩
  exact ⟨⟨List.forall_mem_singleton.mpr hrange, List.forall_mem_nil _⟩, by decide +kernel,
    by decide, by decide +kernel, by decide +kernel⟩

end Document
end Zpl
