import Zpl.Parser

/-! The size of a label. The width is the exact one unless 32 bits cannot hold it, and
then the nearest; since that keeps the order, the width of two groups of commands is the
larger of theirs (`labelWidth?_append`). What the size of any commands is, and what it does not
depend on, is put together in `labelSize_exact`. -/

namespace Zpl

namespace Text

theorem toInt_clampInt32 (n : Int) :
    (clampInt32 n).toInt = max Int32.minValue.toInt (min n Int32.maxValue.toInt) := by
  have hmin : Int32.minValue.toInt = -2147483648 := rfl
  have hmax : Int32.maxValue.toInt = 2147483647 := rfl
  rw [clampInt32, Int32.toInt_ofInt_of_le]
  · omega
  · omega

theorem clampInt32_le {a b : Int} (h : a ≤ b) : clampInt32 a ≤ clampInt32 b := by
  rw [Int32.le_iff_toInt_le, toInt_clampInt32, toInt_clampInt32]
  omega

theorem clampInt32_max (a b : Int) : clampInt32 (max a b) = max (clampInt32 a) (clampInt32 b) := by
  have hmax : ∀ x y : Int32, max x y = if x ≤ y then y else x := fun _ _ => rfl
  rw [hmax]
  rcases Int.le_total a b with hab | hba
  · rw [Int.max_eq_right hab, if_pos (clampInt32_le hab)]
  · rw [Int.max_eq_left hba]
    by_cases hle : clampInt32 a ≤ clampInt32 b
    · rw [if_pos hle]
      exact Int32.le_antisymm hle (clampInt32_le hba)
    · rw [if_neg hle]

end Text

theorem max?_append (xs ys : List Int) : (xs ++ ys).max? = Option.merge max xs.max? ys.max? := by
  induction xs with
  | nil => simp
  | cons x xs ih =>
    rw [List.cons_append, List.max?_cons, List.max?_cons, ih]
    cases xs.max? <;> cases ys.max? <;> simp [Option.merge, Int.max_assoc]

/-- The width of two groups of commands is the larger of their widths. -/
theorem labelWidth?_append (xs ys : List Command) (padding : Int32) :
    labelWidth? (xs ++ ys) padding =
      Option.merge max (labelWidth? xs padding) (labelWidth? ys padding) := by
  unfold labelWidth?
  rw [List.filterMap_append, List.map_append, max?_append]
  cases ((xs.filterMap Command.originX?).map Int32.toInt).max? with
  | none => simp
  | some x =>
    cases ((ys.filterMap Command.originX?).map Int32.toInt).max? with
    | none => simp
    | some y =>
      have hsum : max x y + padding.toInt = max (x + padding.toInt) (y + padding.toInt) := by omega
      simp only [Option.merge, Option.map_some, hsum, Text.clampInt32_max]

theorem labelLength?_append (xs ys : List Command) :
    labelLength? (xs ++ ys) = (labelLength? xs).or (labelLength? ys) :=
  List.findSome?_append

namespace CommandKind

def originX? : CommandKind → Option Int32
  | fieldOrigin x _ => some x
  | _ => none

def length? : CommandKind → Option Int32
  | labelLength n => some n
  | _ => none

end CommandKind

/-- A document has the width and the length that the kinds of its commands tell. -/
theorem labelWidth?_eq (commands : List Command) (padding : Int32) :
    labelWidth? commands padding =
      (((commands.map Command.kind).filterMap CommandKind.originX?).map Int32.toInt).max?.map
        fun x => Text.clampInt32 (x + padding.toInt) := by
  have horigin : CommandKind.originX? ∘ Command.kind = Command.originX? := by
    funext ⟨code, rawText, position, parameters, kind⟩
    cases kind <;> rfl
  rw [labelWidth?, List.filterMap_map, horigin]

theorem labelLength?_eq (commands : List Command) :
    labelLength? commands = (commands.map Command.kind).findSome? CommandKind.length? := by
  have hlength : CommandKind.length? ∘ Command.kind = Command.labelLength? := by
    funext ⟨code, rawText, position, parameters, kind⟩
    cases kind <;> rfl
  rw [labelLength?, List.findSome?_map, hlength]

theorem labelSize_of_kinds {cs cs' : List Command} (h : cs'.map Command.kind = cs.map Command.kind)
    (padding : Int32) :
    labelWidth? cs' padding = labelWidth? cs padding ∧ labelLength? cs' = labelLength? cs := by
  rw [labelWidth?_eq, labelWidth?_eq, labelLength?_eq, labelLength?_eq, h]
  exact ⟨rfl, rfl⟩

/-! ## The exact size -/

/-- `x` is the largest x coordinate among the field origins of commands. -/
structure Rightmost (commands : List Command) (x : Int32) : Prop where
  origin : ∃ c ∈ commands, ∃ y, c.kind = .fieldOrigin x y
  largest : ∀ c ∈ commands, ∀ x' y, c.kind = .fieldOrigin x' y → x'.toInt ≤ x.toInt

namespace Command

theorem originX?_eq_some_iff {c : Command} {x : Int32} :
    c.originX? = some x ↔ ∃ y, c.kind = .fieldOrigin x y := by
  unfold originX?
  split
  · next h => simp [h]
  · next h => exact ⟨nofun, fun ⟨y, hy⟩ => absurd hy (h x y)⟩

theorem labelLength?_eq_some_iff {c : Command} {n : Int32} :
    c.labelLength? = some n ↔ c.kind = .labelLength n := by
  unfold labelLength?
  split
  · next h => simp [h]
  · next h => exact ⟨nofun, fun hn => absurd hn (h n)⟩

theorem labelLength?_eq_none_iff {c : Command} :
    c.labelLength? = none ↔ ∀ n, c.kind ≠ .labelLength n := by
  simp only [Option.eq_none_iff_forall_ne_some, ne_eq, labelLength?_eq_some_iff]

end Command

theorem rightmost_iff {commands : List Command} {n : Int} :
    ((commands.filterMap Command.originX?).map Int32.toInt).max? = some n ↔
      ∃ x, Rightmost commands x ∧ x.toInt = n := by
  have horigins : ∀ x, x ∈ commands.filterMap Command.originX? ↔
      ∃ c ∈ commands, ∃ y, c.kind = .fieldOrigin x y := by
    intro x
    simp only [List.mem_filterMap, Command.originX?_eq_some_iff]
  rw [List.max?_eq_some_iff]
  constructor
  · rintro ⟨hmem, hlargest⟩
    obtain ⟨x, hx, rfl⟩ := List.mem_map.mp hmem
    refine ⟨x, ⟨(horigins x).mp hx, fun c hc x' y hkind => ?_⟩, rfl⟩
    exact hlargest _ (List.mem_map_of_mem ((horigins x').mpr ⟨c, hc, y, hkind⟩))
  · rintro ⟨x, hx, rfl⟩
    refine ⟨List.mem_map_of_mem ((horigins x).mpr hx.origin), fun n hn => ?_⟩
    obtain ⟨x', hx', rfl⟩ := List.mem_map.mp hn
    obtain ⟨c, hc, y, hkind⟩ := (horigins x').mp hx'
    exact hx.largest c hc x' y hkind

/-- The width is the rightmost field origin and the padding, or the bound that this passes. -/
theorem labelWidth?_eq_some_iff {commands : List Command} {padding w : Int32} :
    labelWidth? commands padding = some w ↔ ∃ x, Rightmost commands x ∧
      w.toInt = max (-2147483648) (min (x.toInt + padding.toInt) 2147483647) := by
  have hclamp : ∀ n, Text.clampInt32 n = w ↔ w.toInt = max (-2147483648) (min n 2147483647) := by
    intro n
    rw [← Int32.toInt_inj, Text.toInt_clampInt32]
    exact eq_comm
  simp only [labelWidth?, Option.map_eq_some_iff, rightmost_iff, hclamp]
  constructor
  · rintro ⟨-, ⟨x, hx, rfl⟩, hw⟩
    exact ⟨x, hx, hw⟩
  · rintro ⟨x, hx, hw⟩
    exact ⟨x.toInt, ⟨x, hx, rfl⟩, hw⟩

/-- Which origin is the rightmost one, the kinds of the commands tell. -/
theorem rightmost_iff_kinds {commands : List Command} {x : Int32} :
    Rightmost commands x ↔ (∃ y, .fieldOrigin x y ∈ commands.map Command.kind) ∧
      ∀ x' y, .fieldOrigin x' y ∈ commands.map Command.kind → x'.toInt ≤ x.toInt := by
  simp only [List.mem_map]
  constructor
  · rintro ⟨⟨c, hc, y, hkind⟩, hlargest⟩
    exact ⟨⟨y, c, hc, hkind⟩, fun x' y ⟨c, hc, hkind⟩ => hlargest c hc x' y hkind⟩
  · rintro ⟨⟨y, c, hc, hkind⟩, hlargest⟩
    exact ⟨⟨c, hc, y, hkind⟩, fun c hc x' y hkind => hlargest x' y ⟨c, hc, hkind⟩⟩

theorem labelWidth?_isSome_iff {commands : List Command} {padding : Int32} :
    (labelWidth? commands padding).isSome ↔ ∃ c ∈ commands, ∃ x y, c.kind = .fieldOrigin x y := by
  rw [labelWidth?, Option.isSome_map, List.isSome_max?_iff, ne_eq, List.map_eq_nil_iff,
    List.filterMap_eq_nil_iff]
  simp only [Option.eq_none_iff_forall_ne_some, ne_eq, Command.originX?_eq_some_iff]
  simp

theorem Rightmost.perm {commands others : List Command} {x : Int32} (h : Rightmost commands x)
    (hperm : commands.Perm others) : Rightmost others x := by
  obtain ⟨c, hc, hkind⟩ := h.origin
  exact ⟨⟨c, hperm.subset hc, hkind⟩, fun d hd => h.largest d (hperm.symm.subset hd)⟩

theorem labelWidth?_perm {commands others : List Command} (h : commands.Perm others)
    (padding : Int32) : labelWidth? others padding = labelWidth? commands padding := by
  refine Option.ext fun w => ?_
  rw [labelWidth?_eq_some_iff, labelWidth?_eq_some_iff]
  constructor
  · rintro ⟨x, hx, hw⟩
    exact ⟨x, hx.perm h.symm, hw⟩
  · rintro ⟨x, hx, hw⟩
    exact ⟨x, hx.perm h, hw⟩

/-- With more padding a label does not get narrower. -/
theorem labelWidth?_mono {commands : List Command} {padding more w : Int32} (h : padding ≤ more)
    (hw : labelWidth? commands padding = some w) :
    ∃ w', labelWidth? commands more = some w' ∧ w ≤ w' := by
  obtain ⟨x, hx, rfl⟩ := Option.map_eq_some_iff.mp hw
  refine ⟨Text.clampInt32 (x + more.toInt), ?_, Text.clampInt32_le ?_⟩
  · rw [labelWidth?, hx]
    rfl
  · have hle := Int32.le_iff_toInt_le.mp h
    omega

theorem labelLength?_eq_some_iff {commands : List Command} {n : Int32} :
    labelLength? commands = some n ↔ ∃ front c back, commands = front ++ c :: back ∧
      c.kind = .labelLength n ∧ ∀ d ∈ front, ∀ k, d.kind ≠ .labelLength k := by
  simp only [labelLength?, List.findSome?_eq_some_iff, Command.labelLength?_eq_some_iff,
    Command.labelLength?_eq_none_iff]

theorem labelLength?_eq_some_iff_kinds {commands : List Command} {n : Int32} :
    labelLength? commands = some n ↔ ∃ front back,
      commands.map Command.kind = front ++ .labelLength n :: back ∧ ∀ k, .labelLength k ∉ front := by
  rw [labelLength?_eq_some_iff]
  constructor
  · rintro ⟨front, c, back, rfl, hkind, hnone⟩
    refine ⟨front.map Command.kind, back.map Command.kind, by rw [← hkind]; simp, fun k hk => ?_⟩
    obtain ⟨d, hd, hkind⟩ := List.mem_map.mp hk
    exact hnone d hd k hkind
  · rintro ⟨front, back, hkinds, hnone⟩
    obtain ⟨ds, es, rfl, rfl, hes⟩ := List.map_eq_append_iff.mp hkinds
    obtain ⟨c, back, rfl, hkind, -⟩ := List.map_eq_cons_iff.mp hes
    exact ⟨ds, c, back, rfl, hkind, fun d hd k hk => hnone k (List.mem_map.mpr ⟨d, hd, hk⟩)⟩

/-- A document has the size of its commands. Their width is there if one of them is a field
origin, and is then the exact sum of the largest x coordinate and the padding, or the bound of
32 bits that the sum passes. So it does not depend on the order of the commands, is the larger of
the widths of two parts, and does not get less with more padding. The length is that of the first
label length command, if there is one. -/
theorem labelSize_exact (commands : List Command) (padding : Int32) :
    (∀ (p : Parser) (source : String) (stream : TokenStream),
      let d := p.documentOf source stream
      d.metadata.labelWidth = labelWidth? d.commands p.padding ∧
        d.metadata.labelLength = labelLength? d.commands) ∧
    ((labelWidth? commands padding).isSome ↔
      ∃ c ∈ commands, ∃ x y, c.kind = .fieldOrigin x y) ∧
    (∀ w, labelWidth? commands padding = some w ↔ ∃ x, Rightmost commands x ∧
      w.toInt = max (-2147483648) (min (x.toInt + padding.toInt) 2147483647)) ∧
    (∀ others, commands.Perm others →
      labelWidth? others padding = labelWidth? commands padding) ∧
    (∀ front back, commands = front ++ back → labelWidth? commands padding =
      Option.merge max (labelWidth? front padding) (labelWidth? back padding)) ∧
    (∀ more w, padding ≤ more → labelWidth? commands padding = some w →
      ∃ w', labelWidth? commands more = some w' ∧ w ≤ w') ∧
    (labelLength? commands = none ↔ ∀ c ∈ commands, ∀ n, c.kind ≠ .labelLength n) ∧
    ∀ n, labelLength? commands = some n ↔ ∃ front c back, commands = front ++ c :: back ∧
      c.kind = .labelLength n ∧ ∀ d ∈ front, ∀ k, d.kind ≠ .labelLength k := by
  refine ⟨fun _ _ _ => ⟨rfl, rfl⟩, labelWidth?_isSome_iff, fun _ => labelWidth?_eq_some_iff,
    fun _ h => labelWidth?_perm h padding, ?_, fun _ _ h => labelWidth?_mono h, ?_,
    fun _ => labelLength?_eq_some_iff⟩
  · rintro front back rfl
    exact labelWidth?_append front back padding
  · rw [labelLength?, List.findSome?_eq_none_iff]
    simp only [Command.labelLength?_eq_none_iff]

/-- Of two negative origins the larger counts, and at either bound the width stays there. -/
theorem labelSize_exact_bounds :
    let origin := fun x => Command.mk "FO" "" .start [] (.fieldOrigin x 0)
    let length := fun n => Command.mk "LL" "" .start [] (.labelLength n)
    let commands := [origin (-9), length 300, origin (-7), length 5]
    commands.Perm commands.reverse ∧
    labelWidth? commands.reverse (-2147483645) = some (-2147483648) ∧
    Option.merge max (labelWidth? [origin (-9)] (-2147483645))
      (labelWidth? [length 300, origin (-7), length 5] (-2147483645)) = some (-2147483648) ∧
    (-2147483645 : Int32) ≤ 10 ∧
    (∃ w, labelWidth? commands 10 = some w ∧ -2147483648 ≤ w) ∧
    labelWidth? (origin 2147483647 :: commands) 10 = some 2147483647 ∧
    labelLength? commands = some 300 := by
  intro origin length commands
  have hperm : commands.Perm commands.reverse := (List.reverse_perm _).symm
  have hwidth : labelWidth? commands (-2147483645) = some (-2147483648) := by decide +kernel
  have hmore : (-2147483645 : Int32) ≤ 10 := by decide +kernel
  obtain ⟨-, -, -, perm, split, mono, -, -⟩ := labelSize_exact commands (-2147483645)
  exact ⟨hperm, (perm _ hperm).trans hwidth, (split [_] _ rfl).symm.trans hwidth, hmore,
    mono 10 _ hmore hwidth, by decide +kernel, by decide +kernel⟩

end Zpl
