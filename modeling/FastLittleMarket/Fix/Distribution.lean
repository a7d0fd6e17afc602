import FastLittleMarket.Fix.Counts
import FastLittleMarket.Fix.Offsets
import FastLittleMarket.Fix.Truncation

/-!
Where the bytes and the fields of a stream go, for any bytes and any group definitions.

A parse ends at the end of the stream, behind a CheckSum field, or in a bulk read that
the stream cannot serve. Up to there every field is sent to one map, and the bytes are
in the message or still in the stream.
-/

namespace FastLittleMarket.Fix

open Cursor

variable {maxMessageSize : Nat} {input : List UInt8} {msg msg' : FixMessage maxMessageSize}
  {defs : GroupDefs} {st st' : ParseState maxMessageSize} {F : Forest} {j k m : Nat}
  {f : RawField} {rest z : List UInt8}

section Tokens

end Tokens

section Exits

theorem whole_window (s y : List UInt8) (n : Nat) :
    (window s y n).bytes ++ (window s y n).input = s ++ y := by
  rw [bytes_window, List.append_assoc]
  exact congrArg (s ++ ·) (List.take_append_drop n y)

theorem whole_atDelimiter (s : List UInt8) (f : RawField) (rest : List UInt8) (k : Nat) :
    (atDelimiter s f rest k).bytes ++ (atDelimiter s f rest k).input =
      s ++ (f.wire ++ rest) := by
  rw [atDelimiter, whole_window]
  simp [RawField.wire]

/-- How the last round leaves the stream: at its end, behind a CheckSum field and what was
read ahead of it, or drained by a bulk read that asks for more. -/
inductive Leaves (input : List UInt8) (st : ParseState maxMessageSize) (c : Cursor) : Prop
  | drained (unended : nextField st.pending = none) (bytes : c.bytes = input)
      (rest : c.input = [])
  | checked {f : RawField} {rest : List UInt8} (next : nextField st.pending = some (f, rest))
      (last : f.tag = .checkSum)
      (bytes : c.bytes = st.cursor.scanned ++ f.wire ++ rest.take (st.behind f))
      (rest : c.input = rest.drop (st.behind f))
  | short {f : RawField} {rest : List UInt8} {m : Nat} (meets : st.Meets f rest)
      (current : st.map = some m) (length : f.tag = .bodyLength) (bytes : c.bytes = input)
      (rest : c.input = [])

theorem Coherent.short_of_exit (h : Coherent input st F) (meets : st.Meets f rest)
    (exits : parseField defs st = .ok (.exit st')) :
    ∃ m, st.map = some m ∧ f.tag = .bodyLength ∧
      st'.cursor = atDelimiter st.cursor.scanned f rest (st.readTo input f) ∧
      rest.length < st.readTo input f := by
  cases current : st.map with
  | none =>
      rw [round_null meets current] at exits
      cases exits
  | some m =>
      by_cases takes : st.Takes m f.tag
      · obtain ⟨a, stored, shows⟩ := h.exists_stored takes
        by_cases measured : f.tag = .bodyLength → st.Measured input f
        · by_cases within : st.Within input f rest
          · by_cases complete : st.readTo input f ≤ rest.length
            · rw [h.round_grouped ⟨meets, current, takes, measured, within, complete⟩ stored
                shows] at exits
              obtain ⟨st'', -, made⟩ := Loop.exists_of_map exits
              cases made
            · have short := Nat.lt_of_not_le complete
              rw [h.round_short meets current stored shows measured within short] at exits
              cases exits
              refine ⟨m, rfl, ?_, rfl, short⟩
              by_contra other
              rw [ParseState.readTo, if_neg other] at short
              exact absurd (behind_le meets) (Nat.not_le_of_lt short)
          · rw [h.round_overrun meets current takes measured within] at exits
            cases exits
        · rw [Classical.not_imp] at measured
          obtain ⟨e, fails⟩ := h.round_unmeasured meets current takes measured.1 measured.2 defs
          rw [fails.1] at exits
          cases exits
      · rw [h.round_full meets current takes] at exits
        cases exits

theorem Coherent.leaves (h : Coherent input st F) (defs : GroupDefs)
    (exits : parseField defs st = .ok (.exit st')) : Leaves input st st'.cursor := by
  by_cases excess : maxMessageSize < st.cursor.scanned.length + demand st.pending
  · rw [h.round_excess defs excess] at exits
    cases exits
  · cases next : nextField st.pending with
    | none =>
        rw [demand_end next] at excess
        rw [h.round_end defs next (Nat.le_of_not_lt excess)] at exits
        cases exits
        exact .drained next (by rw [bytes_window, List.take_nil, List.append_nil]) rfl
    | some parts =>
        obtain ⟨f, rest⟩ := parts
        rw [demand_field next] at excess
        have fits := Nat.le_of_not_lt excess
        by_cases last : f.tag = .checkSum
        · rw [round_last next fits last] at exits
          cases exits
          refine .checked next last ?_ rfl
          change (window _ _ _).bytes = _
          rw [bytes_window, List.take_succ_cons]
          simp [RawField.wire]
        · have meets : st.Meets f rest := ⟨next, fits, last⟩
          obtain ⟨m, current, length, left, short⟩ := h.short_of_exit meets exits
          rw [left]
          have whole := whole_atDelimiter st.cursor.scanned f rest (st.readTo input f)
          have drained : (atDelimiter st.cursor.scanned f rest (st.readTo input f)).input = [] :=
            List.drop_eq_nil_of_le (Nat.succ_le_succ (Nat.le_of_lt short))
          rw [drained, List.append_nil, ← List.append_assoc, ← h.input_eq meets] at whole
          exact .short meets current length whole drained

end Exits

section Record

variable {sent : List (Nat × RawField)}

/-- `sent` are the fields of the rounds before `k`, each with the map it was sent to. -/
structure Record (input : List UInt8) (msg : FixMessage maxMessageSize) (defs : GroupDefs)
    (k : Nat) (sent : List (Nat × RawField)) : Prop where
  rounds : sent.length = k
  sends : ∀ {i m f}, sent[i]? = some (m, f) ↔
    i < k ∧ ∃ st, Sends input msg defs i st m f

theorem Record.snoc (h : Record input msg defs k sent) (sends : Sends input msg defs k st m f) :
    Record input msg defs (k + 1) (sent ++ [(m, f)]) where
  rounds := by rw [List.length_append, h.rounds, List.length_singleton]
  sends {i m' f'} := by
    have size := h.rounds
    rcases Nat.lt_trichotomy i k with early | rfl | late
    · rw [List.getElem?_append_left (size ▸ early), h.sends]
      simp only [early, Nat.lt_succ_of_lt early, true_and]
    · rw [← size, List.getElem?_concat_length, size, Option.some.injEq, Prod.mk.injEq]
      constructor
      · rintro ⟨rfl, rfl⟩
        exact ⟨Nat.lt_succ_self _, st, sends⟩
      · rintro ⟨-, st', sends'⟩
        obtain ⟨-, rfl, rfl⟩ := sends.unique sends'
        exact ⟨rfl, rfl⟩
    · have beyond : (sent ++ [(m, f)]).length ≤ i := by
        rw [List.length_append, List.length_singleton, size]
        exact late
      rw [List.getElem?_eq_none beyond]
      refine iff_of_false (fun none_there => by cases none_there) fun early => ?_
      exact absurd early.1 (Nat.not_lt_of_le late)

/-- `sent` are all fields that the parse sends, in their order, each with its map. -/
def SendsAll (input : List UInt8) (msg : FixMessage maxMessageSize) (defs : GroupDefs)
    (sent : List (Nat × RawField)) : Prop :=
  ∀ i m f, sent[i]? = some (m, f) ↔ ∃ st, Sends input msg defs i st m f

theorem Record.all (h : Record input msg defs k sent)
    (last : ∀ {i st m f}, Sends input msg defs i st m f → i < k) :
    SendsAll input msg defs sent := by
  intro i m f
  rw [h.sends]
  refine ⟨And.right, ?_⟩
  rintro ⟨st, sends⟩
  exact ⟨last sends, st, sends⟩

end Record

section Result

variable {sent : List (Nat × RawField)} {tag : FieldTag}

def sentTo (m : Nat) (sent : List (Nat × RawField)) : List RawField :=
  (sent.filter fun p => p.1 = m).map Prod.snd

theorem mem_sentTo : f ∈ sentTo m sent ↔ (m, f) ∈ sent := by
  simp only [sentTo, List.mem_map, List.mem_filter, decide_eq_true_eq]
  constructor
  · rintro ⟨⟨m', f'⟩, ⟨mem, rfl⟩, rfl⟩
    exact mem
  · exact fun mem => ⟨(m, f), ⟨mem, rfl⟩, rfl⟩

theorem sentTo_append (l r : List (Nat × RawField)) :
    sentTo m (l ++ r) = sentTo m l ++ sentTo m r := by
  rw [sentTo, List.filter_append, List.map_append]
  rfl

theorem sentTo_cons (l : List (Nat × RawField)) : sentTo m ((m, f) :: l) = f :: sentTo m l := by
  rw [sentTo, List.filter_cons_of_pos (by simp), List.map_cons]
  rfl

theorem Final.lastOf (h : Final input msg defs j st m f) (all : SendsAll input msg defs sent) :
    KeyedList.lastOf RawField.tag f.tag (sentTo m sent) = some f := by
  have there := (all j m f).mpr ⟨st, h.sends⟩
  obtain ⟨early, at_j⟩ := List.getElem?_eq_some_iff.mp there
  have split : sent = sent.take j ++ (m, f) :: sent.drop (j + 1) := by
    rw [← at_j, ← List.drop_eq_getElem_cons early, List.take_append_drop]
  rw [split, sentTo_append, sentTo_cons]
  refine KeyedList.lastOf_of_split fun g hg => ?_
  obtain ⟨i, inside, at_i⟩ := List.mem_iff_getElem.mp (mem_sentTo.mp hg)
  have later : sent[j + 1 + i]? = some (m, g) := by
    rw [← List.getElem?_drop]
    exact List.getElem?_eq_some_iff.mpr ⟨inside, at_i⟩
  obtain ⟨st', sends'⟩ := (all _ m g).mp later
  exact h.last (by omega) sends'

/-- The map holds the fields: the tags they have, and under each tag the last value. -/
structure Holds (msg : FixMessage maxMessageSize) (m : Nat) (fs : List RawField) : Prop where
  tags : ∃ fields, msg.tags m = .ok fields ∧ (fields.map Field.tag).Nodup ∧
    ∀ tag, tag ∈ fields.map Field.tag ↔ ∃ f ∈ fs, f.tag = tag
  values : ∀ tag, msg.getString m tag =
    .ok ((KeyedList.lastOf RawField.tag tag fs).map RawField.value)

theorem Arena.Shows.mem_keys_iff {a : Arena maxMessageSize} {F : Forest} {fm : FieldMap}
    {tag : FieldTag} (shows : a.Shows F) (cell : a.cells m = some fm) :
    tag ∈ fm.map.keys ↔ ∃ p, F.place m tag = some p := by
  rw [KeyedList.mem_keys_iff]
  constructor
  · rintro ⟨field, found⟩
    exact ⟨_, (shows.present cell found).1⟩
  · rintro ⟨p, known⟩
    cases found : fm.map.find tag with
    | none =>
        rw [(shows.absent cell found).1] at known
        cases known
    | some field => exact ⟨field, rfl⟩

end Result

section Streams

end Streams

end FastLittleMarket.Fix
