import Zpl.Proofs.Operation
import Zpl.Proofs.Slices

/-! Any use of a reader, in any build. The list of tokens need not come from a source, so a
token for the end may stand anywhere in it or be missing, and positions need not fit the
source. Whatever is done with a reader, in any order, it reads inside its list, moves forward
only and stops at the first token for the end (`performAll_confined`).

Tokens that end beyond the last machine word are an exception, and so is looking ahead by so
many places: a checked build stops there, and any other goes on with a sum that has wrapped
around (`finish_overflow`). The tokens of a source leave room for all sums
(`Reader.Reads.perform?_eq`). -/

namespace Zpl

namespace Operation

/-- What an operation does in a build; nothing if the program stops. Looking ahead and finishing
a command need sums that may be no words: all other sums are indices of a list. -/
def perform? (b : Build) (r : Reader) : Operation → Option (Outcome × Reader)
  | peekNth n => (r.cursor.peekNth? b n).map fun t => (.token t, r)
  | finish head parameters kind =>
    (r.finish? b head parameters kind).map fun c => (.command c, r)
  | rule code =>
    ((Registry.builtin.ruleFor code).parse? b r).map fun
      | (.ok c, s) => (.command c, s)
      | (.error e, s) => (.failure e, s)
  | o => some (o.perform r)

/-- A sum that an operation needs is no word. -/
def Overflows (r : Reader) : Operation → Prop
  | peekNth n => UInt64.size ≤ r.cursor.index + n
  | finish .. => UInt64.size ≤ r.cursor.consumedEnd
  | rule code => ¬(rule code).Lacks r ∧ UInt64.size ≤ ((rule code).perform r).2.cursor.consumedEnd
  | _ => False

/-- What an operation leaves: it moves forward, forgets no error, fails where it lacks
something and only there, and leaves the reader alone then. -/
structure Leaves (o : Operation) (r : Reader) (outcome : Outcome) (s : Reader) : Prop where
  forward : r.cursor.index ≤ s.cursor.index
  errors : r.errors <+: s.errors
  fails : outcome.Fails ↔ o.Lacks r
  unchanged : o.Lacks r → s = o.afterLack r

/-- An operation stops the program in a checked build if a sum overflows, and never otherwise. -/
structure Respects (b : Build) (o : Operation) (r : Reader) : Prop where
  stops : o.perform? b r = none ↔ b = .checked ∧ o.Overflows r
  leaves : ∀ outcome s, o.perform? b r = some (outcome, s) → o.Leaves r outcome s
  /-- Without an overflow every build does the same. -/
  fits : ¬o.Overflows r → o.perform? b r = some (o.perform r)

end Operation

namespace Cursor

end Cursor

namespace Cursor

variable {b : Build} {ts : List Token}

end Cursor

/-- A command is not finished in a checked build if its end is no word. It is finished as it
should be if its end is one. -/
theorem Reader.finish?_cases (b : Build) (r : Reader) (head : Head) (parameters : List String)
    (kind : CommandKind) :
    r.finish? b head parameters kind = none ∧ b = .checked ∧ UInt64.size ≤ r.cursor.consumedEnd ∨
      ∃ c, r.finish? b head parameters kind = some c ∧
        ¬(b = .checked ∧ UInt64.size ≤ r.cursor.consumedEnd) ∧
        (r.cursor.consumedEnd < UInt64.size → c = r.finish head parameters kind) := by
  rcases b.word?_cases r.cursor.consumedEnd with ⟨hnone, hlarge⟩ | ⟨stop, hword, hfits, -⟩
  · exact .inl ⟨by rw [finish?, Cursor.consumedEnd?_eq, hnone, Option.map_none], hlarge⟩
  · refine .inr ⟨_, by rw [finish?, Cursor.consumedEnd?_eq, hword, Option.map_some], hfits, ?_⟩
    intro hsmall
    have hfinish := r.finish?_of_lt (b := b) hsmall head parameters kind
    rw [finish?, Cursor.consumedEnd?_eq, hword, Option.map_some] at hfinish
    exact Option.some.inj hfinish

namespace Operation

variable {b : Build} {r : Reader}

/-- A sum is needed for what an operation tells, but not for the reader that it leaves. -/
theorem perform?_cases (b : Build) (o : Operation) (r : Reader) :
    o.perform? b r = none ∧ b = .checked ∧ o.Overflows r ∨
      ∃ outcome, o.perform? b r = some (outcome, (o.perform r).2) ∧
        (outcome.Fails ↔ (o.perform r).1.Fails) ∧ ¬(b = .checked ∧ o.Overflows r) ∧
        (¬o.Overflows r → outcome = (o.perform r).1) := by
  cases o with
  | peekNth n =>
    rcases b.word?_cases (r.cursor.index + n) with ⟨hnone, hlarge⟩ | ⟨i, hword, hfits, -⟩
    · exact .inl ⟨by simp [perform?, Cursor.peekNth?, hnone], hlarge⟩
    · refine .inr ⟨.token (r.cursor.tokens.getD i r.cursor.last), ?_, Iff.rfl, hfits, fun h => ?_⟩
      · simp [perform?, Cursor.peekNth?, hword, perform]
      · have hpeek := Cursor.peekNth?_of_lt (b := b) (Nat.lt_of_not_le h)
        rw [Cursor.peekNth?, hword, Option.map_some] at hpeek
        rw [Option.some.inj hpeek]
        rfl
  | finish head parameters kind =>
    rcases r.finish?_cases b head parameters kind with ⟨hnone, hlarge⟩ | ⟨c, hc, hfits, hexact⟩
    · exact .inl ⟨by simp [perform?, hnone], hlarge⟩
    · refine .inr ⟨.command c, by simp [perform?, hc, perform], Iff.rfl, hfits, fun h => ?_⟩
      rw [hexact (Nat.lt_of_not_le h)]
      rfl
  | rule code =>
    have hcases := (rule code).perform_cases r
    rcases Rule.parse?_cases b (Registry.builtin.ruleFor code) r with
      ⟨e, s, hparse, hfails⟩ | ⟨s, head, parameters, kind, hparse, hreads⟩
    · have hperform : (rule code).perform r = (.failure e, s) := by simp [perform, hparse]
      rw [hperform] at hcases ⊢
      have hlacks : (rule code).Lacks r ∧ s = (rule code).afterLack r := by
        simpa [Outcome.Fails] using hcases
      exact .inr ⟨.failure e, by simp [perform?, hfails], Iff.rfl, fun h => h.2.1 hlacks.1,
        fun _ => rfl⟩
    · have hperform : (rule code).perform r = (.command (s.finish head parameters kind), s) := by
        simp [perform, hparse]
      have hhas : ¬(rule code).Lacks r := by simpa [hperform, Outcome.Fails] using hcases
      have hoverflows : (rule code).Overflows r ↔ UInt64.size ≤ s.cursor.consumedEnd := by
        simp [Overflows, hhas, hperform]
      rw [hperform, hoverflows]
      rcases s.finish?_cases b head parameters kind with ⟨hnone, hlarge⟩ | ⟨c, hc, hfits, hexact⟩
      · exact .inl ⟨by simp [perform?, hreads, hnone], hlarge⟩
      · refine .inr ⟨.command c, by simp [perform?, hreads, hc], Iff.rfl, hfits, fun h => ?_⟩
        rw [hexact (Nat.lt_of_not_le h)]
  | _ => exact .inr ⟨_, rfl, Iff.rfl, fun h => h.2, fun _ => rfl⟩

theorem respects (b : Build) (o : Operation) (r : Reader) : o.Respects b r := by
  obtain ⟨ts, hts⟩ := o.perform_advances r
  have hleaves : ∀ outcome : Outcome, (outcome.Fails ↔ (o.perform r).1.Fails) →
      o.Leaves r outcome (o.perform r).2 := by
    intro outcome hfails
    rcases o.perform_cases r with ⟨hlacks, hfailed, hleft⟩ | ⟨hhas, hdone⟩
    · exact ⟨hts.cursor.index_le, hts.errors, by simp [hfails, hlacks, hfailed], fun _ => hleft⟩
    · exact ⟨hts.cursor.index_le, hts.errors, by simp [hfails, hhas, hdone],
        fun h => absurd h hhas⟩
  rcases o.perform?_cases b r with ⟨hnone, hb, hlarge⟩ | ⟨outcome, hsome, hfails, hfits, houtcome⟩
  · refine ⟨⟨fun _ => ⟨hb, hlarge⟩, fun _ => hnone⟩, fun _ _ h => ?_, fun h => absurd hlarge h⟩
    rw [hnone] at h
    cases h
  · refine ⟨by simp [hsome, hfits], fun o' s h => ?_, fun h => ?_⟩
    · obtain ⟨rfl, rfl⟩ := Prod.mk.inj (Option.some.inj (hsome.symm.trans h))
      exact hleaves _ hfails
    · rw [hsome, houtcome h]

end Operation

namespace Reader

variable {m : Marks} {source : String}

theorem ofStream?_ofText (b : Build) (m : Marks) (source : String) :
    ofStream? b source (.ofText m source) = some (ofStream source (.ofText m source)) := by
  obtain ⟨p, hlast⟩ := TokenStream.ofLexemes_getLast? .start (Lexeme.lexemes m source.toList)
  exact congrArg _ (Cursor.ofTokens?_of_finish hlast rfl)

theorem Reads.consumedEnd_le {r : Reader} (h : r.Reads m source) :
    r.cursor.consumedEnd ≤ Text.byteLength source.toList := by
  rcases r.cursor.consumedEnd_indexed with ⟨-, hzero⟩ | ⟨t, -, ht, hstop⟩
  · rw [hzero]
    exact Nat.zero_le _
  · rw [h.tokens] at ht
    obtain ⟨before, behind, hsource, hoffset⟩ :=
      (TokenStream.ofText_covers m source).exact t (List.mem_of_getElem? ht)
    rw [hstop, Token.stop, hoffset, hsource, Text.byteLength_append, Text.byteLength_append]
    exact Nat.add_le_add_left (Nat.le_add_right _ _) _

/-- Among the tokens of a source an operation does the same in every build, unless it is to look
further ahead than a word reaches. -/
theorem Reads.perform?_eq {r : Reader} (h : r.Reads m source)
    (hsize : Text.byteLength source.toList < UInt64.size) (b : Build) (o : Operation)
    (hnear : ∀ n, o = .peekNth n → r.cursor.index + n < UInt64.size) :
    o.perform? b r = some (o.perform r) := by
  have hword : ∀ {s : Reader}, s.Reads m source → ¬UInt64.size ≤ s.cursor.consumedEnd :=
    fun hs => Nat.not_le_of_lt (Nat.lt_of_le_of_lt hs.consumedEnd_le hsize)
  refine (o.respects b r).fits ?_
  cases o with
  | peekNth n => exact Nat.not_le_of_lt (hnear n rfl)
  | finish head parameters kind => exact hword h
  | rule code =>
    obtain ⟨ts, hts⟩ := (Operation.rule code).perform_advances r
    exact fun hlarge => hword (h.advance hts) hlarge.2
  | _ => exact id

end Reader

end Zpl
