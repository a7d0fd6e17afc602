import FastLittleMarket.Fix.Grouping
import FastLittleMarket.Fix.Header
import FastLittleMarket.Fix.Rounds

/-!
The states a parse goes through, on any stream. In all of them the buffer holds a part of
the stream, the arena shows a forest, and the open maps are nested; what a round does is
told by the field it meets.
-/

namespace FastLittleMarket.Fix

open Cursor

variable {maxMessageSize : Nat}

/-- The place of the field that starts behind `s`, as it is stored. -/
def placeOf (s : List UInt8) (f : RawField) : UInt16 × UInt16 :=
  (UInt16.ofNat (f.token s.length).offset, UInt16.ofNat f.value.length)

def inForce (defs : GroupDefs) (f : RawField) (groups : Option (List GroupDef)) :
    Option (List GroupDef) :=
  if f.tag = .msgType then defs.defs f.value else groups

namespace ParseState

/-- What is still to be scanned. -/
def pending (st : ParseState maxMessageSize) : List UInt8 := st.cursor.ahead ++ st.cursor.input

/-- The current map and the maps around it, the innermost first. -/
def opened (st : ParseState maxMessageSize) : List Nat := st.map.toList ++ st.stack

/-- The next field is complete within the message, and not the last one of it. -/
structure Meets (st : ParseState maxMessageSize) (f : RawField) (rest : List UInt8) : Prop where
  next : nextField st.pending = some (f, rest)
  fits : st.cursor.scanned.length + f.wire.length ≤ maxMessageSize
  notLast : f.tag ≠ .checkSum

/-- The map has the tag already, or a free slot. -/
def Takes (st : ParseState maxMessageSize) (m : Nat) (tag : FieldTag) : Prop :=
  ∃ fm, st.arena.cells m = some fm ∧
    (tag ∈ fm.map.keys ∨ fm.map.items.length < fixMsgMaxFieldCount)

/-- The number the parser reads in a field that is next. -/
def number (st : ParseState maxMessageSize) (input : List UInt8) (f : RawField) : Int :=
  numberAt input (placeOf st.cursor.scanned f)

def behind (st : ParseState maxMessageSize) (f : RawField) : Nat :=
  st.cursor.ahead.length - f.wire.length

/-- The arithmetic on BodyLength stays within `int`. -/
structure Measured (st : ParseState maxMessageSize) (input : List UInt8) (f : RawField) :
    Prop where
  reads : ReadsInt input (placeOf st.cursor.scanned f).1.toNat
    (placeOf st.cursor.scanned f).2.toNat
  total : st.number input f + 7 < 2 ^ 31
  left : -2 ^ 31 ≤ st.number input f + 7 - ((st.behind f + 1 : Nat) : Int)

/-- How many bytes behind the field are to be in the buffer when it has been dealt with. -/
def readTo (st : ParseState maxMessageSize) (input : List UInt8) (f : RawField) : Nat :=
  if f.tag = .bodyLength then max (st.behind f) (st.number input f + 6).toNat else st.behind f

/-- The message has room for the bytes of the bulk read. -/
def Within (st : ParseState maxMessageSize) (input : List UInt8) (f : RawField)
    (rest : List UInt8) : Prop :=
  st.cursor.scanned.length + f.wire.length + min (st.readTo input f) rest.length ≤
    maxMessageSize

/-- The next field goes to the current map, and the bytes a BodyLength announces come
behind it. -/
structure Proceeds (st : ParseState maxMessageSize) (input : List UInt8) (m : Nat) (f : RawField)
    (rest : List UInt8) : Prop where
  meets : st.Meets f rest
  current : st.map = some m
  takes : st.Takes m f.tag
  measured : f.tag = .bodyLength → st.Measured input f
  within : st.Within input f rest
  complete : st.readTo input f ≤ rest.length

theorem eq_window (st : ParseState maxMessageSize) :
    (⟨window st.cursor.scanned st.pending st.cursor.ahead.length, st.arena, st.map, st.stack,
      st.msgGroups⟩ : ParseState maxMessageSize) = st := by
  obtain ⟨⟨s, ahead, input⟩, a, map, stack, groups⟩ := st
  simp [window, pending]

end ParseState

/-- What holds in every state in which a round starts. -/
structure Coherent (input : List UInt8) (st : ParseState maxMessageSize) (F : Forest) : Prop where
  whole : st.cursor.scanned ++ st.pending = input
  held : st.cursor.scanned.length + st.cursor.ahead.length ≤ maxMessageSize
  shows : st.arena.Shows F
  nested : st.opened.Pairwise (· > ·)
  known : ∀ m ∈ st.opened, m < F.size
  placed : Placed F st.cursor.scanned.length

/-- The cursor behind the field, when the bulk read is done. -/
def ParseState.passed (st : ParseState maxMessageSize) (input : List UInt8) (f : RawField)
    (rest : List UInt8) : Cursor :=
  window (st.cursor.scanned ++ f.wire) rest (st.readTo input f)

section Rounds

variable {input : List UInt8} {st : ParseState maxMessageSize} {F : Forest} {defs : GroupDefs}
  {f : RawField} {rest : List UInt8} {m : Nat} {a : Arena maxMessageSize}

theorem ParseState.Meets.pending_eq (meets : st.Meets f rest) : st.pending = f.wire ++ rest :=
  (nextField_eq_some meets.next).1

theorem ParseState.Meets.unique {f' : RawField} {rest' : List UInt8} (meets : st.Meets f rest)
    (meets' : st.Meets f' rest') : f = f' ∧ rest = rest' := by
  have same := meets.next.symm.trans meets'.next
  exact Prod.mk.inj (Option.some.inj same)

theorem ParseState.Meets.delimited (meets : st.Meets f rest) : f.Delimited :=
  (nextField_eq_some meets.next).2

namespace Coherent

theorem opened_eq (current : st.map = some m) : st.opened = m :: st.stack := by
  unfold ParseState.opened
  rw [current]
  rfl

theorem current_lt (h : Coherent input st F) (current : st.map = some m) : m < F.size :=
  h.known m (opened_eq current ▸ List.mem_cons_self)

theorem outer_lt (h : Coherent input st F) {j : Nat} (outer : j ∈ st.stack) : j < F.size :=
  h.known j (List.mem_append_right _ outer)

theorem input_eq (h : Coherent input st F) (meets : st.Meets f rest) :
    input = st.cursor.scanned ++ f.wire ++ rest := by
  rw [← h.whole, meets.pending_eq, List.append_assoc]

theorem behind_le (meets : st.Meets f rest) : st.behind f ≤ rest.length := by
  have size := congrArg List.length meets.pending_eq
  unfold ParseState.pending at size
  rw [List.length_append, List.length_append] at size
  unfold ParseState.behind
  omega

theorem behind_within (h : Coherent input st F) (meets : st.Meets f rest) :
    st.cursor.scanned.length + f.wire.length + st.behind f ≤ maxMessageSize := by
  have held := h.held
  have fits := meets.fits
  unfold ParseState.behind
  omega

theorem placeOf_lt (s : List UInt8) (f : RawField) :
    (placeOf s f).1.toNat + (placeOf s f).2.toNat < s.length + f.wire.length := by
  have low : (placeOf s f).1.toNat ≤ s.length + f.text.length + 1 := by
    unfold placeOf
    rw [UInt16.toNat_ofNat']
    exact Nat.mod_le _ _
  have high : (placeOf s f).2.toNat ≤ f.value.length := by
    unfold placeOf
    rw [UInt16.toNat_ofNat']
    exact Nat.mod_le _ _
  have size := f.length_wire
  omega

theorem placed_set (h : Coherent input st F) (m : Nat) (f : RawField) :
    Placed (F.set m f.tag (placeOf st.cursor.scanned f))
      (st.cursor.scanned.length + f.wire.length) := by
  intro j t p known
  simp only [Forest.set] at known
  split at known
  · cases known
    exact placeOf_lt _ _
  · have before := h.placed _ _ _ known
    omega

theorem round_excess (h : Coherent input st F) (defs : GroupDefs)
    (excess : maxMessageSize < st.cursor.scanned.length + demand st.pending) :
    parseField defs st = .error .bufferOverflow := by
  have round := parseField_excess defs st.arena st.map st.stack st.msgGroups h.held excess
  rwa [st.eq_window] at round

theorem round_end (h : Coherent input st F) (defs : GroupDefs)
    (unended : nextField st.pending = none)
    (fits : st.cursor.scanned.length + st.pending.length ≤ maxMessageSize) :
    parseField defs st =
      .ok (.exit ⟨window input [] 0, st.arena, st.map, st.stack, st.msgGroups⟩) := by
  have round := parseField_none defs st.arena st.map st.stack st.msgGroups unended fits
    (n := st.cursor.ahead.length)
  rwa [st.eq_window, h.whole] at round

theorem round_last (next : nextField st.pending = some (f, rest))
    (fits : st.cursor.scanned.length + f.wire.length ≤ maxMessageSize) (last : f.tag = .checkSum) :
    parseField defs st = .ok (.exit ⟨atDelimiter st.cursor.scanned f rest (st.behind f),
      st.arena, st.map, st.stack, st.msgGroups⟩) := by
  obtain ⟨split, delimited⟩ := nextField_eq_some next
  have round : parseField defs ⟨window st.cursor.scanned (f.wire ++ rest) st.cursor.ahead.length,
      st.arena, st.map, st.stack, st.msgGroups⟩ = _ := parseField_checkSum delimited last fits
  rwa [← split, st.eq_window] at round

theorem round_null (meets : st.Meets f rest) (lost : st.map = none) :
    parseField defs st = .error .nullPointer := by
  have round := parseField_null defs meets.delimited meets.notLast st.arena st.stack
    st.msgGroups rest st.cursor.ahead.length meets.fits
  rwa [← meets.pending_eq, ← lost, st.eq_window] at round

theorem round_full (h : Coherent input st F) (meets : st.Meets f rest) (current : st.map = some m)
    (refuses : ¬ st.Takes m f.tag) : parseField defs st = .error .fieldListFull := by
  obtain ⟨fm, cell⟩ := h.shows.exists_cell (h.current_lt current)
  have full : f.tag ∉ fm.map.keys ∧ fixMsgMaxFieldCount ≤ fm.map.items.length := by
    constructor
    · exact fun known => refuses ⟨fm, cell, .inl known⟩
    · exact Nat.le_of_not_lt fun free => refuses ⟨fm, cell, .inr free⟩
  have refused : st.arena.set m (entry st.cursor.scanned f) = .error .fieldListFull :=
    Heap.set_full cell full.1 full.2
  have round := parseField_refused defs meets.delimited meets.notLast st.stack
    st.msgGroups rest st.cursor.ahead.length meets.fits refused
  rwa [← meets.pending_eq, ← current, st.eq_window] at round

theorem exists_stored (h : Coherent input st F) (takes : st.Takes m f.tag) :
    ∃ a : Arena maxMessageSize, st.arena.set m (entry st.cursor.scanned f) = .ok a ∧
      a.Shows (F.set m f.tag (placeOf st.cursor.scanned f)) := by
  obtain ⟨fm, cell, slot⟩ := takes
  cases stored : st.arena.set m (entry st.cursor.scanned f) with
  | ok a => exact ⟨a, rfl, h.shows.set stored⟩
  | error e =>
      obtain ⟨-, fresh, full⟩ := Heap.set_refused cell stored
      rcases slot with known | free
      · exact absurd known fresh
      · exact absurd full (Nat.not_le_of_lt free)

theorem length_before_delimiter (s : List UInt8) (f : RawField) :
    (s ++ (f.text ++ equals :: f.value)).length + 1 = s.length + f.wire.length := by
  simp only [List.length_append, List.length_cons, f.length_wire]
  omega

theorem part_atDelimiter (h : Coherent input st F) (meets : st.Meets f rest) (k : Nat) :
    (atDelimiter st.cursor.scanned f rest k).bytes <+: input := by
  rw [h.input_eq meets]
  refine ⟨rest.drop k, ?_⟩
  unfold atDelimiter
  rw [bytes_window, List.take_succ_cons]
  simp [RawField.wire]

theorem getInt_bodyLength (h : Coherent input st F) (meets : st.Meets f rest)
    (shows : a.Shows (F.set m f.tag (placeOf st.cursor.scanned f))) (length : f.tag = .bodyLength)
    (k : Nat) :
    a.getInt (atDelimiter st.cursor.scanned f rest k).bytes m .bodyLength =
      some <$> parseInt input (placeOf st.cursor.scanned f).1.toNat
        ((placeOf st.cursor.scanned f).1.toNat + (placeOf st.cursor.scanned f).2.toNat) := by
  have known := F.place_set m f.tag (placeOf st.cursor.scanned f)
  rw [length] at known shows
  have near := placeOf_lt st.cursor.scanned f
  have size := length_before_delimiter st.cursor.scanned f
  have part := h.part_atDelimiter meets k
  have held : st.cursor.scanned.length + f.wire.length ≤
      (atDelimiter st.cursor.scanned f rest k).bytes.length := by
    unfold atDelimiter
    rw [bytes_window, List.take_succ_cons, List.length_append, List.length_cons]
    omega
  rw [shows.getInt known,
    parseInt_congr fun i le at_place => byteAt_prefix part (by omega)]

theorem bulk_measured (h : Coherent input st F) (meets : st.Meets f rest)
    (shows : a.Shows (F.set m f.tag (placeOf st.cursor.scanned f)))
    (measured : f.tag = .bodyLength → st.Measured input f) :
    bulk f.tag a m (atDelimiter st.cursor.scanned f rest (st.behind f)) =
      if maxMessageSize < st.cursor.scanned.length + f.wire.length +
          min (st.readTo input f) rest.length then .error .bufferOverflow
      else .ok (decide (st.readTo input f ≤ rest.length),
        atDelimiter st.cursor.scanned f rest (st.readTo input f)) := by
  have ahead := behind_le meets
  have within := h.behind_within meets
  have size := length_before_delimiter st.cursor.scanned f
  by_cases length : f.tag = .bodyLength
  · obtain ⟨reads, total, left⟩ := measured length
    have value := h.getInt_bodyLength meets shows length (st.behind f)
    rw [reads.parseInt_eq] at value
    have read := readBody_eq ahead (by omega) value left total
    have enough : st.readTo input f ≤ rest.length ↔
        (st.number input f + 6).toNat ≤ rest.length := by
      rw [ParseState.readTo, if_pos length]
      omega
    have reach : max (st.behind f) (st.number input f + 6).toNat = st.readTo input f := by
      rw [ParseState.readTo, if_pos length]
    change readBody a m (atDelimiter st.cursor.scanned f rest (st.behind f)) =
      if maxMessageSize < (st.cursor.scanned ++ (f.text ++ equals :: f.value)).length + 1 +
          min (max (st.behind f) (st.number input f + 6).toNat) rest.length then
        .error .bufferOverflow
      else .ok (decide ((st.number input f + 6).toNat ≤ rest.length),
        atDelimiter st.cursor.scanned f rest
          (max (st.behind f) (st.number input f + 6).toNat)) at read
    rw [reach, size] at read
    rw [bulk, if_pos length, read]
    simp only [enough]
  · have reach : st.readTo input f = st.behind f := if_neg length
    rw [bulk, if_neg length, reach, if_neg (by omega), decide_eq_true ahead]

theorem bulk_unmeasured (h : Coherent input st F) (meets : st.Meets f rest)
    (shows : a.Shows (F.set m f.tag (placeOf st.cursor.scanned f))) (length : f.tag = .bodyLength)
    (unmeasured : ¬ st.Measured input f) :
    ∃ e, bulk f.tag a m (atDelimiter st.cursor.scanned f rest (st.behind f)) = .error e ∧
      e.Numeric := by
  have ahead := behind_le meets
  have value := h.getInt_bodyLength meets shows length (st.behind f)
  rw [bulk, if_pos length]
  by_cases reads : ReadsInt input (placeOf st.cursor.scanned f).1.toNat
      (placeOf st.cursor.scanned f).2.toNat
  · rw [reads.parseInt_eq] at value
    refine ⟨.intOverflow, readBody_overflow (M := st.number input f) ahead value ?_, .inl rfl⟩
    by_contra inside
    rw [not_or, Int.not_lt, Int.not_le] at inside
    exact unmeasured ⟨reads, inside.2, inside.1⟩
  · obtain ⟨e, fails, numeric⟩ := parseInt_fails reads
    rw [fails] at value
    exact ⟨e, readBody_error value, numeric⟩

theorem round_stored (meets : st.Meets f rest) (current : st.map = some m)
    (stored : st.arena.set m (entry st.cursor.scanned f) = .ok a) (defs : GroupDefs) :
    parseField defs st =
      match bulk f.tag a m (atDelimiter st.cursor.scanned f rest (st.behind f)) with
      | .error e => .error e
      | .ok (true, c) =>
          Loop.Step.next <$> groupStep m f.tag
            ⟨c.advance, a, some m, st.stack, inForce defs f st.msgGroups⟩
      | .ok (false, c) => .ok (.exit ⟨c, a, some m, st.stack, st.msgGroups⟩) := by
  have round := parseField_stored defs meets.delimited meets.notLast st.stack
    st.msgGroups rest st.cursor.ahead.length meets.fits stored
  rwa [← meets.pending_eq, ← current, st.eq_window, current] at round

theorem round_unmeasured (h : Coherent input st F) (meets : st.Meets f rest)
    (current : st.map = some m) (takes : st.Takes m f.tag) (length : f.tag = .bodyLength)
    (unmeasured : ¬ st.Measured input f) (defs : GroupDefs) :
    ∃ e, parseField defs st = .error e ∧ e.Numeric := by
  obtain ⟨a, stored, shows⟩ := h.exists_stored takes
  obtain ⟨e, fails, numeric⟩ := h.bulk_unmeasured meets shows length unmeasured
  refine ⟨e, ?_, numeric⟩
  rw [round_stored meets current stored, fails]

theorem round_overrun (h : Coherent input st F) (meets : st.Meets f rest)
    (current : st.map = some m) (takes : st.Takes m f.tag)
    (measured : f.tag = .bodyLength → st.Measured input f) (beyond : ¬ st.Within input f rest)
    (defs : GroupDefs) : parseField defs st = .error .bufferOverflow := by
  obtain ⟨a, stored, shows⟩ := h.exists_stored takes
  rw [round_stored meets current stored, h.bulk_measured meets shows measured,
    if_pos (Nat.lt_of_not_le beyond)]

theorem round_short (h : Coherent input st F) (meets : st.Meets f rest) (current : st.map = some m)
    (stored : st.arena.set m (entry st.cursor.scanned f) = .ok a)
    (shows : a.Shows (F.set m f.tag (placeOf st.cursor.scanned f)))
    (measured : f.tag = .bodyLength → st.Measured input f) (within : st.Within input f rest)
    (short : rest.length < st.readTo input f) (defs : GroupDefs) :
    parseField defs st = .ok (.exit ⟨atDelimiter st.cursor.scanned f rest (st.readTo input f),
      a, some m, st.stack, st.msgGroups⟩) := by
  rw [round_stored meets current stored, h.bulk_measured meets shows measured,
    if_neg (Nat.not_lt_of_le within), decide_eq_false (Nat.not_le_of_lt short)]

theorem round_grouped (h : Coherent input st F) (proceeds : st.Proceeds input m f rest)
    (stored : st.arena.set m (entry st.cursor.scanned f) = .ok a)
    (shows : a.Shows (F.set m f.tag (placeOf st.cursor.scanned f))) (defs : GroupDefs) :
    parseField defs st = Loop.Step.next <$> groupStep m f.tag
      ⟨st.passed input f rest, a, some m, st.stack, inForce defs f st.msgGroups⟩ := by
  rw [round_stored proceeds.meets proceeds.current stored,
    h.bulk_measured proceeds.meets shows proceeds.measured,
    if_neg (Nat.not_lt_of_le proceeds.within), decide_eq_true proceeds.complete]
  have passed : (atDelimiter st.cursor.scanned f rest (st.readTo input f)).advance =
      st.passed input f rest := by
    unfold atDelimiter ParseState.passed
    rw [advance_window]
    simp [RawField.wire]
  dsimp only
  rw [passed]

theorem bytes_passed (h : Coherent input st F) (meets : st.Meets f rest) :
    (st.passed input f rest).bytes <+: input ∧
      st.cursor.scanned.length + f.wire.length ≤ (st.passed input f rest).bytes.length := by
  unfold ParseState.passed
  rw [bytes_window]
  refine ⟨⟨rest.drop (st.readTo input f), ?_⟩, ?_⟩
  · rw [List.append_assoc, List.take_append_drop, ← h.input_eq meets]
  · simp only [List.length_append]
    omega

/-- The bytes in the buffer behind a field, and the places that can be read in them. -/
theorem placed_passed (h : Coherent input st F) (meets : st.Meets f rest) (m : Nat) :
    (st.passed input f rest).bytes <+: input ∧
      Placed (F.set m f.tag (placeOf st.cursor.scanned f))
        (st.passed input f rest).bytes.length := by
  obtain ⟨part, held⟩ := h.bytes_passed meets
  exact ⟨part, fun _ _ _ known => Nat.lt_of_lt_of_le (h.placed_set m f _ _ _ known) held⟩

theorem passed (h : Coherent input st F) (proceeds : st.Proceeds input m f rest)
    {F' : Forest} (shows : a.Shows F')
    (placed : Placed F' (st.cursor.scanned.length + f.wire.length)) {map : Option Nat}
    {stack : List Nat} (groups : Option (List GroupDef))
    (nested : (map.toList ++ stack).Pairwise (· > ·))
    (known : ∀ j ∈ map.toList ++ stack, j < F'.size) :
    Coherent input ⟨st.passed input f rest, a, map, stack, groups⟩ F' where
  whole := by
    unfold ParseState.pending ParseState.passed window
    rw [List.take_append_drop, ← h.input_eq proceeds.meets]
  held := by
    have within := proceeds.within
    unfold ParseState.Within at within
    simp only [ParseState.passed, window, List.length_append, List.length_take]
    exact within
  shows := shows
  nested := nested
  known := known
  placed := by
    unfold ParseState.passed
    rw [scanned_window, List.length_append]
    exact placed

theorem grouped (h : Coherent input st F) (meets : st.Meets f rest) (current : st.map = some m)
    (shows : a.Shows (F.set m f.tag (placeOf st.cursor.scanned f))) (defs : GroupDefs) :
    Grouped input (st.passed input f rest) a (F.set m f.tag (placeOf st.cursor.scanned f)) m f.tag
      st.stack (inForce defs f st.msgGroups)
      (groupStep m f.tag
        ⟨st.passed input f rest, a, some m, st.stack, inForce defs f st.msgGroups⟩) := by
  obtain ⟨part, placed⟩ := h.placed_passed meets m
  exact groupStep_grouped shows part placed (h.current_lt current) (fun _ => h.outer_lt)
    (F.place_set _ _ _)

end Coherent

theorem Due.around_sublist {tag t : FieldTag} {stack around : List Nat}
    {groups : Option (List GroupDef)} {p : Nat}
    (due : Due input F m tag stack groups p t around) : around.Sublist (m :: stack) := by
  cases due with
  | first => exact .refl _
  | further => exact List.sublist_cons_self m stack

namespace Coherent

theorem extended (h : Coherent input st F) (proceeds : st.Proceeds input m f rest)
    (shows : a.Shows (F.set m f.tag (placeOf st.cursor.scanned f)))
    {groups : Option (List GroupDef)}
    {st' : ParseState maxMessageSize}
    (grouped : Grouped input (st.passed input f rest) a
      (F.set m f.tag (placeOf st.cursor.scanned f)) m f.tag st.stack groups (.ok st')) :
    ∃ F', Extends input maxMessageSize (F.set m f.tag (placeOf st.cursor.scanned f)) m f.tag
      st.stack groups F' ∧ Coherent input st' F' := by
  have opened := opened_eq proceeds.current
  have nested := h.nested
  have known := h.known
  rw [opened] at nested known
  have sub : ∀ {around : List Nat}, around.Sublist (m :: st.stack) →
      around.Pairwise (· > ·) ∧ ∀ j ∈ around, j < F.size := fun sublist =>
    ⟨nested.sublist sublist, fun j hj => known j (sublist.subset hj)⟩
  have placed := h.placed_set m f
  cases grouped with
  | stays plain =>
      exact ⟨_, .same fun _ => plain, h.passed proceeds shows placed _ nested known⟩
  | @grows p t around a' due inside room shows' =>
      obtain ⟨pairwise, below⟩ := sub due.around_sublist
      refine ⟨_, .graft due inside room, h.passed proceeds shows' placed _ ?_ ?_⟩
      · exact List.pairwise_cons.mpr ⟨below, pairwise⟩
      · intro j hj
        change j < F.size + 1
        rcases List.mem_cons.mp hj with rfl | old
        · exact Nat.lt_succ_self F.size
        · exact Nat.lt_succ_of_lt (below j old)
  | lost due full =>
      obtain ⟨pairwise, below⟩ := sub due.around_sublist
      exact ⟨_, .same fun room => absurd room full,
        h.passed proceeds shows placed _ pairwise below⟩
  | closes plain top =>
      have sublist : st.stack.Sublist (m :: st.stack) := List.sublist_cons_self m st.stack
      obtain ⟨pairwise, below⟩ := sub sublist
      rw [top] at pairwise below
      exact ⟨_, .same fun _ => plain, h.passed proceeds shows placed _ pairwise below⟩

end Coherent

theorem Grouped.cursor_eq {c : Cursor} {a : Arena maxMessageSize} {F : Forest} {m : Nat}
    {tag : FieldTag} {stack : List Nat} {groups : Option (List GroupDef)}
    (grouped : Grouped input c a F m tag stack groups (.ok st)) :
    st.cursor = c := by
  cases grouped <;> rfl

/-- What a round can do, and why. -/
inductive Round (input : List UInt8) (defs : GroupDefs) (st : ParseState maxMessageSize)
    (F : Forest) :
    Except ParseFault (Loop.Step (ParseState maxMessageSize) (ParseState maxMessageSize)) → Prop
  | excess (more : maxMessageSize < st.cursor.scanned.length + demand st.pending) :
      Round input defs st F (.error .bufferOverflow)
  | leaves {c : Cursor} (part : c.bytes <+: input)
      (held : st.cursor.scanned.length ≤ c.bytes.length)
      (unmet : ∀ f rest, ¬ st.Meets f rest) :
      Round input defs st F (.ok (.exit ⟨c, st.arena, st.map, st.stack, st.msgGroups⟩))
  | null {f : RawField} {rest : List UInt8} (meets : st.Meets f rest) (lost : st.map = none) :
      Round input defs st F (.error .nullPointer)
  | full {f : RawField} {rest : List UInt8} {m : Nat} (meets : st.Meets f rest)
      (current : st.map = some m) (refuses : ¬ st.Takes m f.tag) :
      Round input defs st F (.error .fieldListFull)
  | unmeasured {f : RawField} {rest : List UInt8} {m : Nat} {e : ParseFault}
      (meets : st.Meets f rest) (current : st.map = some m) (takes : st.Takes m f.tag)
      (length : f.tag = .bodyLength) (unmeasured : ¬ st.Measured input f) (numeric : e.Numeric) :
      Round input defs st F (.error e)
  | overrun {f : RawField} {rest : List UInt8} {m : Nat} (meets : st.Meets f rest)
      (current : st.map = some m) (takes : st.Takes m f.tag)
      (measured : f.tag = .bodyLength → st.Measured input f)
      (beyond : ¬ st.Within input f rest) : Round input defs st F (.error .bufferOverflow)
  | short {f : RawField} {rest : List UInt8} {m : Nat} {a : Arena maxMessageSize} {c : Cursor}
      (meets : st.Meets f rest) (current : st.map = some m)
      (stored : st.arena.set m (entry st.cursor.scanned f) = .ok a)
      (shows : a.Shows (F.set m f.tag (placeOf st.cursor.scanned f))) (part : c.bytes <+: input)
      (held : st.cursor.scanned.length + f.wire.length ≤ c.bytes.length) :
      Round input defs st F (.ok (.exit ⟨c, a, some m, st.stack, st.msgGroups⟩))
  | unread {f : RawField} {rest : List UInt8} {m : Nat} {e : ParseFault}
      {a : Arena maxMessageSize} (proceeds : st.Proceeds input m f rest)
      (grouped : Grouped input (st.passed input f rest) a
        (F.set m f.tag (placeOf st.cursor.scanned f)) m f.tag st.stack
        (inForce defs f st.msgGroups) (.error e)) :
      Round input defs st F (.error e)
  | next {f : RawField} {rest : List UInt8} {m : Nat} {a : Arena maxMessageSize}
      {st' : ParseState maxMessageSize} {F' : Forest} (proceeds : st.Proceeds input m f rest)
      (stored : st.arena.set m (entry st.cursor.scanned f) = .ok a)
      (shows : a.Shows (F.set m f.tag (placeOf st.cursor.scanned f)))
      (step : groupStep m f.tag ⟨st.passed input f rest, a, some m, st.stack,
        inForce defs f st.msgGroups⟩ = .ok st')
      (grouped : Grouped input (st.passed input f rest) a
        (F.set m f.tag (placeOf st.cursor.scanned f)) m f.tag st.stack
        (inForce defs f st.msgGroups) (.ok st'))
      (extends' : Extends input maxMessageSize (F.set m f.tag (placeOf st.cursor.scanned f)) m
        f.tag st.stack (inForce defs f st.msgGroups) F')
      (coherent : Coherent input st' F') : Round input defs st F (.ok (.next st'))

namespace Coherent

theorem round_storing (h : Coherent input st F) (meets : st.Meets f rest)
    (current : st.map = some m) (takes : st.Takes m f.tag)
    (measured : f.tag = .bodyLength → st.Measured input f) (within : st.Within input f rest)
    (defs : GroupDefs) : Round input defs st F (parseField defs st) := by
  obtain ⟨a, stored, shows⟩ := h.exists_stored takes
  by_cases complete : st.readTo input f ≤ rest.length
  · have proceeds : st.Proceeds input m f rest :=
      ⟨meets, current, takes, measured, within, complete⟩
    have grouped := h.grouped meets current shows defs
    rw [h.round_grouped proceeds stored shows]
    cases outcome : groupStep m f.tag
        ⟨st.passed input f rest, a, some m, st.stack, inForce defs f st.msgGroups⟩ with
    | error e =>
        rw [outcome] at grouped
        exact .unread proceeds grouped
    | ok st' =>
        rw [outcome] at grouped
        obtain ⟨F', extends', coherent⟩ := h.extended proceeds shows grouped
        exact .next proceeds stored shows outcome grouped extends' coherent
  · have short := Nat.lt_of_not_le complete
    rw [h.round_short meets current stored shows measured within short]
    refine .short meets current stored shows (h.part_atDelimiter meets _) ?_
    have size := length_before_delimiter st.cursor.scanned f
    unfold atDelimiter
    rw [bytes_window, List.take_succ_cons, List.length_append, List.length_cons]
    omega

theorem round (h : Coherent input st F) (defs : GroupDefs) :
    Round input defs st F (parseField defs st) := by
  by_cases excess : maxMessageSize < st.cursor.scanned.length + demand st.pending
  · rw [h.round_excess defs excess]
    exact .excess excess
  cases next : nextField st.pending with
  | none =>
      rw [demand_end next] at excess
      rw [h.round_end defs next (Nat.le_of_not_lt excess)]
      refine .leaves ?_ ?_ fun f rest meets => ?_
      · refine ⟨[], ?_⟩
        rw [bytes_window, List.take_nil, List.append_nil, List.append_nil]
      · rw [bytes_window, ← h.whole]
        simp
      · rw [meets.next] at next
        cases next
  | some parts =>
      obtain ⟨f, rest⟩ := parts
      rw [demand_field next] at excess
      have fits := Nat.le_of_not_lt excess
      by_cases last : f.tag = .checkSum
      · rw [round_last next fits last]
        obtain ⟨split, -⟩ := nextField_eq_some next
        refine .leaves ?_ ?_ fun f' rest' meets => ?_
        · rw [← h.whole, split]
          refine ⟨rest.drop (st.behind f), ?_⟩
          unfold atDelimiter
          rw [bytes_window, List.take_succ_cons]
          simp [RawField.wire]
        · unfold atDelimiter
          rw [bytes_window]
          simp only [List.length_append]
          omega
        · have same := next.symm.trans meets.next
          cases same
          exact meets.notLast last
      · have meets : st.Meets f rest := ⟨next, fits, last⟩
        cases current : st.map with
        | none =>
            rw [round_null meets current]
            exact .null meets current
        | some m =>
            by_cases takes : st.Takes m f.tag
            · by_cases measured : f.tag = .bodyLength → st.Measured input f
              · by_cases within : st.Within input f rest
                · exact h.round_storing meets current takes measured within defs
                · rw [h.round_overrun meets current takes measured within]
                  exact .overrun meets current takes measured within
              · obtain ⟨length, unmeasured⟩ := Classical.not_imp.mp measured
                obtain ⟨e, fails, numeric⟩ :=
                  h.round_unmeasured meets current takes length unmeasured defs
                rw [fails]
                exact .unmeasured meets current takes length unmeasured numeric
            · rw [h.round_full meets current takes]
              exact .full meets current takes

/-- A round that goes on has dealt with a field and stands behind it. -/
theorem advances (h : Coherent input st F) {st' : ParseState maxMessageSize}
    (round : parseField defs st = .ok (.next st')) :
    ∃ m f rest F', st.Proceeds input m f rest ∧ Coherent input st' F' ∧ st'.pending = rest ∧
      st'.cursor.scanned = st.cursor.scanned ++ f.wire := by
  have outcome := h.round defs
  rw [round] at outcome
  cases outcome with
  | @next f rest m a _ F' proceeds stored shows step grouped extends' coherent' =>
      refine ⟨m, f, rest, F', proceeds, coherent', ?_, ?_⟩
      · unfold ParseState.pending
        rw [grouped.cursor_eq]
        exact List.take_append_drop _ rest
      · rw [grouped.cursor_eq]
        rfl

end Coherent

end Rounds

section Runs

variable {input : List UInt8} {msg msg' : FixMessage maxMessageSize} {defs : GroupDefs}
  {st st' : ParseState maxMessageSize} {k : Nat} {z : List UInt8}

/-- The state in which the round `k` of a parse starts. -/
def FixMessage.Visits (input : List UInt8) (msg : FixMessage maxMessageSize) (defs : GroupDefs)
    (k : Nat) (st : ParseState maxMessageSize) : Prop :=
  ∃ buf, msg.reset = .ok ⟨[], .single buf KeyedList.empty⟩ ∧
    Loop.Reaches (parseField defs) k (.start buf input) st

theorem shows_single {buf : MessageBuffer maxMessageSize}
    (used : buf.used = sizeofFieldMap + maxMessageSize) :
    (Heap.single buf KeyedList.empty).Shows .root where
  stocked := by
    unfold Arena.Stocked
    change buf.used = sizeofFieldMap * 1 + maxMessageSize
    rw [used, Nat.mul_one]
  size := rfl
  absent _ _ := ⟨rfl, rfl⟩
  present {m fm tag f} cell found := by
    cases m with
    | zero =>
        cases cell
        cases found
    | succ m => cases cell
  beyond _ _ _ := rfl

theorem coherent_start {buf : MessageBuffer maxMessageSize}
    (used : buf.used = sizeofFieldMap + maxMessageSize) (input : List UInt8) :
    Coherent input (.start buf input) .root where
  whole := rfl
  held := Nat.zero_le _
  shows := shows_single used
  nested := List.pairwise_singleton _ _
  known m hm := by
    rw [List.mem_singleton.mp hm]
    exact Nat.one_pos
  placed _ _ _ known := by cases known

namespace FixMessage.Visits

theorem coherent (h : FixMessage.Visits input msg defs k st) :
    ∃ F, Coherent input st F ∧ k ≤ st.cursor.scanned.length := by
  obtain ⟨buf, reset, run⟩ := h
  have used : buf.used = sizeofFieldMap + maxMessageSize := by
    obtain ⟨buf', reset', used⟩ := reset_single msg
    rw [reset] at reset'
    cases reset'
    exact used
  induction k generalizing st with
  | zero =>
      cases run
      exact ⟨_, coherent_start used input, Nat.zero_le _⟩
  | succ k ih =>
      obtain ⟨st₀, before, round⟩ := run.exists_last
      obtain ⟨F, coherent, few⟩ := ih before
      obtain ⟨m, f, rest, F', -, coherent', -, scanned⟩ := coherent.advances round
      refine ⟨F', coherent', ?_⟩
      have size := f.length_wire
      rw [scanned, List.length_append]
      omega

theorem budget (h : FixMessage.Visits input msg defs k st) : k ≤ input.length := by
  obtain ⟨F, coherent, few⟩ := h.coherent
  have whole := congrArg List.length coherent.whole
  rw [List.length_append] at whole
  omega

theorem step (h : FixMessage.Visits input msg defs k st)
    (round : parseField defs st = .ok (.next st')) :
    FixMessage.Visits input msg defs (k + 1) st' := by
  obtain ⟨buf, reset, run⟩ := h
  exact ⟨buf, reset, run.snoc round⟩

theorem exists_last (h : FixMessage.Visits input msg defs (k + 1) st') :
    ∃ st, FixMessage.Visits input msg defs k st ∧ parseField defs st = .ok (.next st') := by
  obtain ⟨buf, reset, run⟩ := h
  obtain ⟨st, before, round⟩ := run.exists_last
  exact ⟨st, ⟨buf, reset, before⟩, round⟩

theorem unique (h : FixMessage.Visits input msg defs k st)
    (h' : FixMessage.Visits input msg defs k st') : st = st' := by
  obtain ⟨buf, reset, run⟩ := h
  obtain ⟨buf', reset', run'⟩ := h'
  rw [reset] at reset'
  cases reset'
  exact run.unique run'

theorem parse_error {e : ParseFault} (h : FixMessage.Visits input msg defs k st)
    (fails : parseField defs st = .error e) : FixMessage.parse input msg defs = .error e := by
  have inTime := h.budget
  obtain ⟨buf, reset, run⟩ := h
  exact parse_fail reset run fails inTime

theorem parse_ok (h : FixMessage.Visits input msg defs k st)
    (leaves : parseField defs st = .ok (.exit st')) :
    FixMessage.parse input msg defs = .ok (⟨st'.cursor.bytes, st'.arena⟩, st'.cursor.input) := by
  have inTime := h.budget
  obtain ⟨buf, reset, run⟩ := h
  exact parse_exit reset run leaves inTime

end FixMessage.Visits

theorem parse_error_iff {e : ParseFault} (inTime : e ≠ .unfinishedLoop) :
    FixMessage.parse input msg defs = .error e ↔
      ∃ k st, FixMessage.Visits input msg defs k st ∧ parseField defs st = .error e := by
  constructor
  · intro failed
    obtain ⟨buf, reset, -⟩ := reset_single msg
    rw [parse_of_reset reset] at failed
    cases run : Loop.run .unfinishedLoop (parseField defs) (input.length + 1)
        (ParseState.start buf input) with
    | ok st =>
        rw [run] at failed
        cases failed
    | error e' =>
        rw [run] at failed
        obtain rfl := Except.error.inj failed
        obtain ⟨k, st, -, reached, fails⟩ := Loop.exists_of_run_error run inTime
        exact ⟨k, st, ⟨buf, reset, reached⟩, fails⟩
  · rintro ⟨k, st, visits, fails⟩
    exact visits.parse_error fails

theorem exists_last_round (parsed : FixMessage.parse input msg defs = .ok (msg', z)) :
    ∃ k st st', FixMessage.Visits input msg defs k st ∧
      parseField defs st = .ok (.exit st') ∧ msg' = ⟨st'.cursor.bytes, st'.arena⟩ := by
  obtain ⟨buf, reset, -⟩ := reset_single msg
  rw [parse_of_reset reset] at parsed
  obtain ⟨st', run, made⟩ := Loop.exists_of_bind parsed
  obtain ⟨k, st, -, reached, leaves⟩ := Loop.exists_of_run_ok run
  refine ⟨k, st, st', ⟨buf, reset, reached⟩, leaves, ?_⟩
  cases made
  rfl

end Runs

end FastLittleMarket.Fix
