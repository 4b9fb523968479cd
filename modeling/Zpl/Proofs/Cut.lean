import Zpl.Proofs.Scan

/-! Cutting a text behind an operand. What the scanner finds before a place depends on
the text behind it by its first character at most, so the lexemes up to the end of a
code, a parameter or a content are those of the text that ends there (`Scan.cut`). -/

namespace Zpl

theorem Text.trimEnd_trimEnd (cs : List Char) : trimEnd (trimEnd cs) = trimEnd cs :=
  trimEnd_of_getLast? fun _ => getLast?_trimEnd

theorem Text.endBlanks_trimEnd (cs : List Char) : endBlanks (trimEnd cs) = [] := by
  have hsplit := trimEnd_append_endBlanks (trimEnd cs)
  rwa [trimEnd_trimEnd, List.append_right_eq_self] at hsplit

namespace Lexeme

variable {m : Marks}

/-- A text and what is cut from it start alike. -/
theorem head?_cut {xs front back : List Lexeme} {x : Lexeme} (hx : x.text ≠ [])
    (h : xs = front ++ x :: back) : (flatten (front ++ [x])).head? = (flatten xs).head? := by
  have happend : flatten xs = flatten (front ++ [x]) ++ flatten back := by simp [h]
  obtain ⟨c, cs, hc⟩ := List.exists_cons_of_ne_nil (by simp [hx] : flatten (front ++ [x]) ≠ [])
  rw [happend, hc]
  rfl

/-! ## Stretches of text -/

/-- To what stands in front of them, two texts are alike: they start with the same
character, or the second one with a line feed. -/
def StartsLike (cs cs' : List Char) : Prop :=
  cs'.head? = cs.head? ∨ cs'.head? = some '\n'

theorem codeLength_eq_zero {cs cs' : List Char} (h : codeLength cs = 0)
    (hlike : StartsLike cs cs') : codeLength cs' = 0 := by
  have hnot : ∀ c, cs'.head? = some c → isCodeChar c = false := by
    intro c hc
    rcases hlike with hhead | hbreak
    · obtain ⟨ds, rfl⟩ := List.head?_eq_some_iff.mp (hhead.symm.trans hc)
      rw [codeLength_cons] at h
      by_cases hcode : isCodeChar c
      · rw [if_pos hcode] at h
        split at h <;> cases h
      · exact Bool.eq_false_iff.mpr hcode
    · obtain rfl : '\n' = c := Option.some.inj (hbreak.symm.trans hc)
      rfl
  cases cs' with
  | nil => rfl
  | cons c cs' => rw [codeLength_cons, hnot c rfl, if_neg (by simp)]

theorem trivia?_eq_none {c : Char} {cs : List Char} :
    trivia? (c :: cs) = none ↔
      c ≠ '\n' ∧ c ≠ '\r' ∧ (c = '/' → cs.head? ≠ some '/' ∧ cs.head? ≠ some '*') := by
  constructor
  · intro h
    unfold trivia? at h
    split at h
    · cases h
    · cases h
    · cases h
    · cases h
    · split at h <;> cases h
    · simp_all [List.head?_eq_some_iff]
  · rintro ⟨hn, hr, hc⟩
    unfold trivia?
    split <;> simp_all

theorem Plain.congr {c : Char} {cs cs' : List Char} (h : Plain m c cs)
    (hlike : StartsLike cs cs') : Plain m c cs' := by
  obtain ⟨hn, hr, hslash⟩ := trivia?_eq_none.mp h.not_trivia
  refine ⟨h.not_marker, trivia?_eq_none.mpr ⟨hn, hr, ?_⟩⟩
  intro hc
  rcases hlike with hhead | hbreak
  · rw [hhead]
    exact hslash hc
  · rw [hbreak]
    simp

theorem EndsOperands.congr {cs cs' : List Char} (h : EndsOperands m cs)
    (hlike : StartsLike cs cs') : EndsOperands m cs' := by
  intro c hc
  rcases hlike with hhead | hbreak
  · exact h c (hhead ▸ hc)
  · obtain rfl : '\n' = c := Option.some.inj (hbreak.symm.trans hc)
    simp [isOperandChar, Text.isLineBreak]

theorem splitAtClose?_cut {cs body rest : List Char} (rest' : List Char)
    (h : splitAtClose? cs = some (body, rest)) :
    splitAtClose? (body ++ '*' :: '/' :: rest') = some (body, rest') := by
  fun_induction splitAtClose? cs generalizing body with
  | case1 rest =>
    obtain ⟨rfl, rfl⟩ := Prod.mk.inj (Option.some.inj h)
    rfl
  | case2 c cs hc ih =>
    obtain ⟨⟨front, back⟩, hs, he⟩ := Option.map_eq_some_iff.mp h
    obtain ⟨rfl, rfl⟩ := Prod.mk.inj he
    rw [List.cons_append, splitAtClose?.eq_2, ih hs]
    · rfl
    · intro more hstar hmore
      have hcs := splitAtClose?_eq hs
      cases front with
      | nil => simp at hmore
      | cons d front =>
        obtain rfl : d = '/' := (List.cons.inj hmore).1
        exact hc _ hstar hcs
  | case3 => simp at h

/-- A comment or line break stays what it is, unless what stands behind it goes on with
it: a line feed with a carriage return, any text with an open comment. -/
theorem trivia?_cut {cs rest rest' : List Char} {x : Lexeme} (h : trivia? cs = some (x, rest))
    (hhead : rest'.head? = rest.head? ∨
      rest'.head? = some '\n' ∧ x.kind ≠ .openComment ∧ x.text ≠ ['\r']) :
    trivia? (x.text ++ rest') = some (x, rest') := by
  refine trivia?_iff.mpr ?_
  cases trivia?_iff.mp h with
  | pair => exact .pair
  | carriageReturn hrest =>
    have hsame := hhead.resolve_right fun hbreak => hbreak.2.2 rfl
    exact .carriageReturn (hsame ▸ hrest)
  | lineFeed => exact .lineFeed
  | line hbody hrest =>
    refine .line hbody fun c hc => ?_
    rcases hhead with hsame | ⟨hfeed, -, -⟩
    · exact hrest c (hsame.symm.trans hc)
    · obtain rfl := Option.some.inj (hfeed.symm.trans hc)
      rfl
  | block hclose =>
    have hcut := Trivia.block (splitAtClose?_cut rest' hclose)
    simpa using hcut
  | unclosed hclose =>
    have hsame := hhead.resolve_right fun hbreak => hbreak.2.1 rfl
    obtain rfl : rest' = [] := by simpa using hsame
    simpa using Trivia.unclosed hclose

/-! ## Operands -/

theorem Pieces.flatten_eq {line : List Char} {xs : List Lexeme} (h : Pieces m line xs) :
    flatten xs = line := by
  rw [← h.eq, flatten_parameterList]

theorem Pieces.cut {line : List Char} {xs front back : List Lexeme} {x : Lexeme}
    (h : Pieces m line xs) (hx : xs = front ++ x :: back) (hk : x.kind = .parameter) :
    Pieces m (flatten (front ++ [x])) (front ++ [x]) := by
  have hne : x.text ≠ [] := (h.fits x (by simp [hx])).2.nonempty
  induction h generalizing front with
  | nil => simp at hx
  | separator hc hs ih =>
    cases front with
    | nil =>
      obtain ⟨rfl, -⟩ := List.cons.inj hx
      cases hk
    | cons y front =>
      obtain ⟨rfl, hys⟩ := List.cons.inj hx
      exact .separator hc (ih hys)
  | @parameter word cs ys hword hall hcs hs ih =>
    cases front with
    | nil =>
      obtain ⟨rfl, -⟩ := List.cons.inj hx
      exact .parameter hword hall (by simp) .nil
    | cons y front =>
      obtain ⟨rfl, hys⟩ := List.cons.inj hx
      refine .parameter hword hall ?_ (ih hys)
      intro c hc
      have hhead := head?_cut hne hys
      rw [hs.flatten_eq] at hhead
      exact hcs c (hhead.symm.trans hc)

@[simp] theorem operands_nil (code : List Char) : operands m code [] = [] := by
  unfold operands
  split <;> rfl

theorem operands_cut {code line : List Char} {front back : List Lexeme} {x : Lexeme}
    (h : operands m code line = front ++ x :: back) (hk : x.kind = .parameter ∨ x.kind = .content) :
    operands m code (flatten (front ++ [x])) = front ++ [x] := by
  have hkind := operands_kind (h ▸ by simp : x ∈ operands m code line)
  unfold operands at h ⊢
  split at h
  · next hcode =>
    -- content comes first, and is what is left of the line once trimmed
    rw [if_pos hcode] at hkind ⊢
    have hcontent : x.kind = .content := by
      rcases hk with hk | hk
      · simp [hk] at hkind
      · exact hk
    have hblank : ∀ y ∈ each .blank (Text.endBlanks line), y.kind ≠ .content := by
      intro y hy
      obtain ⟨c, -, rfl⟩ := List.mem_map.mp hy
      simp
    simp only [fieldContent] at h
    split at h
    · exact absurd hcontent (hblank x (h ▸ by simp))
    next hbody =>
    cases front with
    | nil =>
      obtain ⟨rfl, -⟩ := List.cons.inj h
      simp only [List.nil_append, flatten_cons, flatten_nil, List.append_nil]
      rw [fieldContent, Text.trimEnd_trimEnd, if_neg hbody, Text.endBlanks_trimEnd]
      rfl
    | cons y front =>
      obtain ⟨-, hblanks⟩ := List.cons.inj h
      exact absurd hcontent (hblank x (hblanks ▸ by simp))
  · next hcode =>
    rw [if_neg hcode] at hkind ⊢
    have hparameter : x.kind = .parameter := by
      rcases hk with hk | hk
      · exact hk
      · simp [hk] at hkind
    exact ((pieces_parameterList m line).cut h hparameter).eq

/-! ## Whole texts -/

theorem IsCommand.cut {code line rest line' rest' : List Char} (h : IsCommand m code line rest)
    (hline : ∀ c ∈ line', isOperandChar m c) (hends : EndsOperands m rest')
    (hhead : ∀ c, (line' ++ rest').head? = some c → (line ++ rest).head? = some c) :
    IsCommand m code line' rest' :=
  ⟨h.code.congr fun c hc => .inl (hhead c hc), hline, hends⟩

/-- A command that ends at one of its operands has the operands up to there. -/
theorem IsCommand.cut_operand {code line rest : List Char} {front back : List Lexeme} {x : Lexeme}
    (h : IsCommand m code line rest) (ho : operands m code line = front ++ x :: back)
    (hk : x.kind = .parameter ∨ x.kind = .content) :
    Scan m (m.marker :: (code ++ flatten (front ++ [x])))
      (⟨.marker, [m.marker]⟩ :: ⟨.code, code⟩ :: (front ++ [x])) := by
  have hline : line = flatten (front ++ [x]) ++ flatten back := by
    rw [← flatten_operands m code line, ho]
    simp
  have hcut : IsCommand m code (flatten (front ++ [x])) [] := by
    refine h.cut ?_ (by simp [EndsOperands]) ?_
    · intro c hc
      apply h.line
      rw [hline]
      exact List.mem_append_left _ hc
    · intro c hc
      rw [List.append_nil] at hc
      rw [hline, List.head?_append, List.head?_append, hc]
      rfl
  have hscan := Scan.command hcut .nil
  rwa [operands_cut ho hk, List.append_nil, List.append_nil] at hscan

theorem cut_cons {ys front back : List Lexeme} {y x : Lexeme} (h : y :: ys = front ++ x :: back)
    (hy : leads y.kind) (hx : leads x.kind = false) :
    ∃ front', front = y :: front' ∧ ys = front' ++ x :: back := by
  cases front with
  | nil =>
    obtain ⟨rfl, -⟩ := List.cons.inj h
    simp [hx] at hy
  | cons z front =>
    obtain ⟨rfl, hys⟩ := List.cons.inj h
    exact ⟨front, rfl, hys⟩

/-- The lexemes up to the end of an operand are those of the text that ends there. -/
theorem Scan.cut {cs : List Char} {xs front back : List Lexeme} {x : Lexeme}
    (h : Scan m cs xs) (hx : xs = front ++ x :: back)
    (hk : x.kind = .code ∨ x.kind = .parameter ∨ x.kind = .content) :
    Scan m (flatten (front ++ [x])) (front ++ [x]) := by
  have hne : x.text ≠ [] := h.nonempty x (by simp [hx])
  have hleads : leads x.kind = false := by rcases hk with hk | hk | hk <;> simp [hk, leads]
  have hhead : ∀ {rest ys front}, Scan m rest ys → ys = front ++ x :: back →
      (flatten (front ++ [x])).head? = rest.head? := by
    intro rest ys front hs hys
    rw [head?_cut hne hys, hs.flatten_eq]
  induction h generalizing front with
  | nil => simp at hx
  | loneMarker hcode hs ih =>
    obtain ⟨front, rfl, hys⟩ := cut_cons hx rfl hleads
    exact .loneMarker (codeLength_eq_zero hcode (.inl (hhead hs hys))) (ih hys)
  | @trivia c cs y rest ys hc ht hs ih =>
    obtain ⟨front, rfl, hys⟩ := cut_cons hx (leads_of_isTrivia (trivia?_kind ht)) hleads
    exact .skip hc ht (trivia?_cut ht (.inl (hhead hs hys))) (ih hys)
  | blank hp hb hs ih =>
    obtain ⟨front, rfl, hys⟩ := cut_cons hx rfl hleads
    exact .blank (hp.congr (.inl (hhead hs hys))) hb (ih hys)
  | stray hp hb hs ih =>
    obtain ⟨front, rfl, hys⟩ := cut_cons hx rfl hleads
    exact .stray (hp.congr (.inl (hhead hs hys))) hb (ih hys)
  | @command code line rest ys hc hs ih =>
    obtain ⟨front, rfl, hrest⟩ := cut_cons hx rfl hleads
    cases front with
    | nil =>
      -- cut behind the code
      obtain ⟨rfl, -⟩ := List.cons.inj hrest
      have hcut : IsCommand m code [] [] := hc.cut (by simp) (by simp [EndsOperands]) (by simp)
      simpa using Scan.command hcut .nil
    | cons y front =>
      obtain ⟨rfl, hops⟩ := List.cons.inj hrest
      rcases split_append_cons hops with ⟨more, rfl, hmore⟩ | ⟨after, ho, -⟩
      · -- cut behind the command
        have hends := hc.ends.congr (.inl (hhead hs hmore))
        have hcut : IsCommand m code line (flatten (more ++ [x])) := by
          refine hc.cut hc.line hends ?_
          rw [List.head?_append, List.head?_append, hhead hs hmore]
          exact fun _ h => h
        simpa using Scan.command hcut (ih hmore)
      · -- cut in the operands
        have hoperand : x.kind = .parameter ∨ x.kind = .content := by
          have hkind := operands_kind (ho ▸ by simp : x ∈ operands m code line)
          rcases hk with hk | hk | hk
          · split at hkind <;> simp [hk] at hkind
          · exact .inl hk
          · exact .inr hk
        simpa using hc.cut_operand ho hoperand

end Lexeme
end Zpl
