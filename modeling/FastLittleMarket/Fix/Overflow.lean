import FastLittleMarket.Fix.Limits

/-!
The arithmetic of a parse. All of it is on the numbers of BodyLength fields and of the count
fields that end tags look at; it stays within `int` exactly if these numbers are small
enough where they are read.
-/

namespace FastLittleMarket.Fix

variable {maxMessageSize : Nat} {input : List UInt8} {msg : FixMessage maxMessageSize}
  {defs : GroupDefs} {st : ParseState maxMessageSize} {F : Forest} {k m : Nat}
  {f : RawField} {rest : List UInt8}

/-- The numbers the next round reads are within the range of its arithmetic: that of a
BodyLength, and that of the count field an end tag compares with its groups. -/
structure ParseState.Computable (defs : GroupDefs) (st : ParseState maxMessageSize)
    (input : List UInt8) : Prop where
  length : ∀ {f : RawField} {rest : List UInt8} {m : Nat}, st.Meets f rest → st.map = some m →
    st.Takes m f.tag → f.tag = .bodyLength → st.Measured input f
  count : ∀ {f : RawField} {rest : List UInt8} {m : Nat} {gd : GroupDef} {parent : Nat}
    {below : List Nat} {field : Field}, st.Proceeds input m f rest →
      concerned (inForce defs f st.msgGroups) f.tag = some gd → gd.groupCountTag ≠ f.tag →
      st.stack = parent :: below → st.arena.get parent gd.groupCountTag = .ok (some field) →
      Countable input gd.groupCountTag (field.offset, field.length)

namespace Coherent

theorem round_unread (h : Coherent input st F) (proceeds : st.Proceeds input m f rest)
    {gd : GroupDef} {parent : Nat} {below : List Nat} {field : Field}
    (found : concerned (inForce defs f st.msgGroups) f.tag = some gd)
    (ends : gd.groupCountTag ≠ f.tag) (top : st.stack = parent :: below)
    (counted : st.arena.get parent gd.groupCountTag = .ok (some field))
    (unreadable : ¬ Countable input gd.groupCountTag (field.offset, field.length)) :
    ∃ e, parseField defs st = .error e ∧ e.Numeric := by
  obtain ⟨a, stored, shows⟩ := h.exists_stored proceeds.takes
  obtain ⟨part, placed⟩ := h.placed_passed proceeds.meets m
  have outer : parent ∈ st.stack := by simp [top]
  obtain ⟨place, -⟩ := h.read_outer counted
  rw [← h.place_outer proceeds.current outer f.tag (placeOf st.cursor.scanned f)] at place
  have unread : ∃ e, closeGroup ⟨st.passed input f rest, a, some m, parent :: below,
      inForce defs f st.msgGroups⟩ gd = .error e ∧ e.Numeric :=
    closeGroup_unread shows part placed place unreadable
  obtain ⟨e, fails, numeric⟩ := unread
  refine ⟨e, ?_, numeric⟩
  rw [h.round_grouped proceeds stored shows, groupStep_eq]
  simp only [found, ends, if_false, top, fails]
  rfl

end Coherent

/-- The arithmetic of a parse stays within `int` exactly if every round can compute with the
numbers it reads. -/
theorem parse_computes_iff (input : List UInt8) (msg : FixMessage maxMessageSize)
    (defs : GroupDefs) :
    (∀ e : ParseFault, e.Numeric → FixMessage.parse input msg defs ≠ .error e) ↔
      ∀ k st, FixMessage.Visits input msg defs k st → st.Computable defs input := by
  constructor
  · intro fine k st visits
    obtain ⟨F, coherent, -⟩ := visits.coherent
    have measured : ∀ {f : RawField} {rest : List UInt8} {m : Nat}, st.Meets f rest →
        st.map = some m → st.Takes m f.tag → f.tag = .bodyLength → st.Measured input f := by
      intro f rest m meets current takes length
      by_contra unmeasured
      obtain ⟨e, fails, numeric⟩ :=
        coherent.round_unmeasured meets current takes length unmeasured defs
      exact fine e numeric (visits.parse_error fails)
    refine ⟨measured, fun proceeds found ends top counted => ?_⟩
    by_contra unreadable
    obtain ⟨e, fails, numeric⟩ :=
      coherent.round_unread proceeds found ends top counted unreadable
    exact fine e numeric (visits.parse_error fails)
  · intro computable e numeric failed
    have inTime : e ≠ .unfinishedLoop := numeric.ne (by decide)
    obtain ⟨k, st, visits, fails⟩ := (parse_error_iff inTime).mp failed
    obtain ⟨F, coherent, -⟩ := visits.coherent
    have computes := computable k st visits
    have outcome := coherent.round defs
    rw [fails] at outcome
    cases outcome with
    | excess more => exact numeric.ne (by decide) rfl
    | null meets lost => exact numeric.ne (by decide) rfl
    | full meets current refuses => exact numeric.ne (by decide) rfl
    | overrun meets current takes measured beyond => exact numeric.ne (by decide) rfl
    | unmeasured meets current takes length unmeasured numeric' =>
        exact unmeasured (computes.length meets current takes length)
    | unread proceeds grouped =>
        cases grouped with
        | @unread gd parent below p _ found ends top known unreadable numeric' =>
            have outer : parent ∈ st.stack := by simp [top]
            rw [coherent.place_outer proceeds.current outer] at known
            obtain ⟨field, counted, rfl, -⟩ := coherent.shows.exists_get known
            exact unreadable (computes.count proceeds found ends top counted)

def longBodyStream : List UInt8 :=
  ascii "8=A" ++ soh :: (ascii "9=2147483648" ++ soh :: (ascii "35=D" ++ [soh]))

theorem parse_overflows_bodyLength :
    longBodyStream.length ≤ 2048 ∧ ParseFault.Numeric .intOverflow ∧
      FixMessage.parse longBodyStream (emptyMessage admits_2048) GroupDefs.empty =
        .error .intOverflow :=
  ⟨by decide, .inl rfl, eq_error_of_faultOf (by decide +kernel)⟩

end FastLittleMarket.Fix
