import FastLittleMarket.Fix.Distribution

/-!
What the parser looks at. Of the fields of a stream it sees the tags and the lengths of the
values, and the values themselves only of BodyLength, of MsgType and of the counts of groups:
a stream in which other values have been replaced, those of CheckSum among them, is parsed
with the same outcome, and to the same maps.
-/

namespace FastLittleMarket.Fix

open Cursor

variable {maxMessageSize : Nat}

/-- The parser looks at the values of the fields with this tag. -/
def GroupDefs.Observes (defs : GroupDefs) (tag : FieldTag) : Prop :=
  tag = .bodyLength ∨ tag = .msgType ∨
    ∃ msgType, ∃ gd ∈ (defs.defs msgType).getD [], gd.groupCountTag = tag

/-- A field in the place of another one, of the same tag and length. -/
structure Replaces (defs : GroupDefs) (f g : RawField) : Prop where
  delimited : f.Delimited
  delimited' : g.Delimited
  text : g.text = f.text
  length : g.value.length = f.value.length
  kept : defs.Observes f.tag → g.value = f.value

/-- A stream in which fields have been replaced. -/
def Disguised (defs : GroupDefs) (x y : List UInt8) : Prop :=
  ∃ fs gs z, x = wireAll fs ++ z ∧ y = wireAll gs ++ z ∧ List.Forall₂ (Replaces defs) fs gs

section Streams

variable {defs : GroupDefs} {x y rest : List UInt8} {f g : RawField}

theorem Replaces.tag (h : Replaces defs f g) : g.tag = f.tag :=
  congrArg (fun text => (stoft text).getD .invalid) h.text

theorem Replaces.length_wire (h : Replaces defs f g) : g.wire.length = f.wire.length := by
  rw [f.length_wire, g.length_wire, h.text, h.length]

theorem Replaces.eq (h : Replaces defs f g) (observed : defs.Observes f.tag) : g = f := by
  obtain ⟨text, value⟩ := f
  obtain ⟨text', value'⟩ := g
  obtain rfl := h.text
  obtain rfl := h.kept observed
  rfl

theorem Replaces.refl (delimited : f.Delimited) : Replaces defs f f :=
  ⟨delimited, delimited, rfl, rfl, fun _ => rfl⟩

theorem Disguised.refl (x : List UInt8) : Disguised defs x x := ⟨[], [], x, rfl, rfl, .nil⟩

theorem Disguised.length (h : Disguised defs x y) : y.length = x.length := by
  obtain ⟨fs, gs, z, rfl, rfl, replaced⟩ := h
  induction replaced with
  | nil => rfl
  | cons one rest ih =>
      simp only [wireAll_cons, List.append_assoc, List.length_append] at ih ⊢
      rw [one.length_wire, ih]

theorem cut_delimiter {delimiter : UInt8} {text : List UInt8} (free : delimiter ∉ text)
    (rest : List UInt8) : cut delimiter (text ++ delimiter :: rest) = some (text, rest) := by
  induction text with
  | nil => exact if_pos rfl
  | cons b text ih =>
      obtain ⟨other, free⟩ := not_or.mp (List.mem_cons.not.mp free)
      rw [List.cons_append, cut, if_neg (Ne.symm other), ih free]
      rfl

theorem nextField_wire (delimited : f.Delimited) (rest : List UInt8) :
    nextField (f.wire ++ rest) = some (f, rest) := by
  have split : f.wire ++ rest = f.text ++ equals :: (f.value ++ soh :: rest) := by
    simp [RawField.wire]
  unfold nextField
  rw [split, cut_delimiter delimited.text]
  dsimp only
  rw [cut_delimiter delimited.value]
  rfl

/-- The next fields of the two streams, if there are any. -/
theorem Disguised.exists_next (h : Disguised defs x y) (next : nextField x = some (f, rest)) :
    ∃ g rest', nextField y = some (g, rest') ∧ Replaces defs f g ∧ Disguised defs rest rest' := by
  obtain ⟨fs, gs, z, rfl, rfl, replaced⟩ := h
  cases replaced with
  | nil =>
      obtain ⟨-, delimited⟩ := nextField_eq_some next
      exact ⟨f, rest, next, .refl delimited, .refl rest⟩
  | @cons f' g fs gs one others =>
      rw [wireAll_cons, List.append_assoc, nextField_wire one.delimited] at next
      cases next
      refine ⟨g, wireAll gs ++ z, ?_, one, fs, gs, z, rfl, rfl, others⟩
      rw [wireAll_cons, List.append_assoc, nextField_wire one.delimited']

theorem Disguised.next_none (h : Disguised defs x y) (unended : nextField x = none) :
    nextField y = none := by
  obtain ⟨fs, gs, z, rfl, rfl, replaced⟩ := h
  cases replaced with
  | nil => exact unended
  | @cons f g fs gs one others =>
      rw [wireAll_cons, List.append_assoc, nextField_wire one.delimited] at unended
      cases unended

theorem Disguised.demand_eq (h : Disguised defs x y) : demand y = demand x := by
  cases next : nextField x with
  | none => rw [demand_end next, demand_end (h.next_none next), h.length]
  | some parts =>
      obtain ⟨f, rest⟩ := parts
      obtain ⟨g, rest', next', one, -⟩ := h.exists_next next
      rw [demand_field next, demand_field next', one.length_wire]

end Streams

/-- The same position in another stream. -/
def Cursor.over (y : List UInt8) (c : Cursor) : Cursor :=
  window (y.take c.scanned.length) (y.drop c.scanned.length) c.ahead.length

def ParseState.over (y : List UInt8) (st : ParseState maxMessageSize) :
    ParseState maxMessageSize :=
  { st with cursor := st.cursor.over y }

section Cursors

variable {y : List UInt8} {c : Cursor}

theorem Cursor.eq_window (c : Cursor) :
    c = window c.scanned (c.ahead ++ c.input) c.ahead.length := by
  unfold window
  rw [List.take_left, List.drop_left]

theorem window_min (s p : List UInt8) (n : Nat) : window s p (min n p.length) = window s p n := by
  rcases Nat.le_total n p.length with le | ge
  · rw [Nat.min_eq_left le]
  · rw [Nat.min_eq_right ge, window, window, List.take_length, List.drop_length,
      List.take_of_length_le ge, List.drop_of_length_le ge]

theorem over_window {s p s' p' : List UInt8} (n : Nat) (front : s'.length = s.length)
    (back : p'.length = p.length) : (window s p n).over (s' ++ p') = window s' p' n := by
  have held : (window s p n).ahead.length = min n p'.length := by
    rw [back]
    exact List.length_take
  unfold Cursor.over
  rw [held, scanned_window, ← front, List.take_left, List.drop_left, window_min]

theorem bytes_over (y : List UInt8) (c : Cursor) : (c.over y).bytes = y.take c.bytes.length := by
  unfold Cursor.over
  rw [bytes_window, ← List.take_add, Cursor.bytes, List.length_append]

theorem input_over (y : List UInt8) (c : Cursor) :
    (c.over y).input = y.drop c.bytes.length := by
  change (y.drop c.scanned.length).drop c.ahead.length = y.drop (c.scanned ++ c.ahead).length
  rw [List.drop_drop, List.length_append]

/-- The bulk read in the other stream. -/
theorem read_over (size : (c.bytes ++ c.input).length = y.length) (n : Nat) :
    (c.over y).read maxMessageSize n =
      (c.read maxMessageSize n).map fun r => (r.1, r.2.over y) := by
  rw [Cursor.bytes, List.append_assoc, List.length_append] at size
  have front : (y.take c.scanned.length).length = c.scanned.length := by
    rw [List.length_take]
    omega
  have back : (y.drop c.scanned.length).length = (c.ahead ++ c.input).length := by
    rw [List.length_drop]
    omega
  have whole : y = y.take c.scanned.length ++ y.drop c.scanned.length :=
    (List.take_append_drop _ y).symm
  have here : (window c.scanned (c.ahead ++ c.input) c.ahead.length).read maxMessageSize n = _ :=
    read_window
  rw [← c.eq_window] at here
  unfold Cursor.over
  rw [read_window, here, front, back]
  split
  · rfl
  · refine congrArg Except.ok (Prod.ext rfl ?_)
    have moved := over_window (c.ahead.length + n) front back
    rw [← whole] at moved
    exact moved.symm

end Cursors

section Steps

variable {defs : GroupDefs} {x y : List UInt8} {st : ParseState maxMessageSize} {F : Forest}
  {m : Nat} {a : Arena maxMessageSize} {c : Cursor}

/-- The bulk read where both streams announce the same. -/
theorem readBody_over (size : (c.bytes ++ c.input).length = y.length)
    (same : a.getInt (c.over y).bytes m .bodyLength = a.getInt c.bytes m .bodyLength) :
    readBody a m (c.over y) = (readBody a m c).map fun r => (r.1, r.2.over y) := by
  have ahead : (c.over y).ahead.length = c.ahead.length := by
    unfold Cursor.over window
    simp only [Cursor.bytes, List.length_append] at size
    rw [List.length_take, List.length_drop]
    omega
  unfold readBody
  rw [same, ahead]
  refine Loop.bind_eq_map (fun value => ?_) _
  refine Loop.bind_eq_map (fun withTrailer => ?_) _
  refine Loop.bind_eq_map (fun toRead => ?_) _
  split
  · exact read_over size _
  · rfl

/-- The count of the group is the same number in both streams. -/
def CountsAlike (y : List UInt8) (st : ParseState maxMessageSize) (tag : FieldTag) : Prop :=
  ∀ parent field, st.arena.get parent tag = .ok (some field) →
    Arena.getIntOf (st.over y).cursor.bytes field = Arena.getIntOf st.cursor.bytes field

theorem closeGroup_over {gd : GroupDef} (same : CountsAlike y st gd.groupCountTag) :
    closeGroup (st.over y) gd = (closeGroup st gd).map (ParseState.over y) := by
  obtain ⟨c, a, map, stack, groups⟩ := st
  cases stack with
  | nil => rfl
  | cons parent stack =>
      unfold CountsAlike ParseState.over at same
      unfold closeGroup ParseState.over
      dsimp only at same ⊢
      cases found : a.get parent gd.groupCountTag with
      | error e => rfl
      | ok field =>
          cases field with
          | none => rfl
          | some field =>
              simp only [bind, Except.bind, same parent field found]
              cases Arena.getIntOf c.bytes field with
              | error e => rfl
              | ok expected =>
                  cases a.groupCount field with
                  | error e => rfl
                  | ok received =>
                      dsimp only
                      split
                      · rfl
                      · cases a.addGroup parent gd.groupCountTag with
                        | error e => rfl
                        | ok grown => rfl

theorem groupStep_over {tag : FieldTag}
    (same : ∀ gd ∈ st.msgGroups.getD [], CountsAlike y st gd.groupCountTag) :
    groupStep m tag (st.over y) = (groupStep m tag st).map (ParseState.over y) := by
  have groups : (st.over y).msgGroups = st.msgGroups := rfl
  rw [groupStep_eq, groupStep_eq, groups]
  cases found : concerned st.msgGroups tag with
  | none => rfl
  | some gd =>
      dsimp only
      split
      · unfold ParseState.over
        cases st.arena.addGroup m tag with
        | error e => rfl
        | ok grown => rfl
      · exact closeGroup_over (same gd (List.mem_of_find?_eq_some found))

end Steps

/-- The values the parser looks at are the same in both streams, wherever they are stored. -/
def ReadsAlike (defs : GroupDefs) (x y : List UInt8) (F : Forest) : Prop :=
  ∀ m tag p, F.place m tag = some p → defs.Observes tag →
    ∀ i, p.1.toNat ≤ i → i ≤ p.1.toNat + p.2.toNat → byteAt y i = byteAt x i

/-- What holds where a round starts on both streams. -/
structure Veiled (defs : GroupDefs) (x y : List UInt8) (st : ParseState maxMessageSize)
    (F : Forest) : Prop where
  coherent : Coherent x st F
  size : y.length = x.length
  pending : Disguised defs st.pending (y.drop st.cursor.scanned.length)
  reads : ReadsAlike defs x y F
  groups : ∀ gd ∈ st.msgGroups.getD [], defs.Observes gd.groupCountTag

/-- The next field and the one in its place. -/
structure Faces (defs : GroupDefs) (y : List UInt8) (st : ParseState maxMessageSize)
    (f : RawField) (rest : List UInt8) (g : RawField) (rest' : List UInt8) : Prop where
  next : nextField st.pending = some (f, rest)
  next' : nextField (y.drop st.cursor.scanned.length) = some (g, rest')
  replaces : Replaces defs f g
  rest : Disguised defs rest rest'

section Rounds

variable {defs : GroupDefs} {x y : List UInt8} {st st' : ParseState maxMessageSize} {F : Forest}
  {m : Nat} {a : Arena maxMessageSize} {f g : RawField} {rest rest' : List UInt8}

theorem pending_over (y : List UInt8) (st : ParseState maxMessageSize) :
    (st.over y).pending = y.drop st.cursor.scanned.length :=
  List.take_append_drop _ _

theorem Coherent.length_pending (h : Coherent x st F) :
    st.cursor.scanned.length + st.pending.length = x.length := by
  rw [← h.whole, List.length_append]

theorem Coherent.length_front (h : Coherent x st F) (size : y.length = x.length) :
    (y.take st.cursor.scanned.length).length = st.cursor.scanned.length := by
  have whole := h.length_pending
  rw [List.length_take]
  omega

theorem Coherent.ahead_over (h : Coherent x st F) (size : y.length = x.length) :
    (st.over y).cursor.ahead.length = st.cursor.ahead.length := by
  have whole := h.length_pending
  unfold ParseState.pending at whole
  change ((y.drop st.cursor.scanned.length).take st.cursor.ahead.length).length = _
  rw [List.length_append] at whole
  rw [List.length_take, List.length_drop]
  omega

/-- The same state over the other stream is coherent, too. -/
theorem Coherent.over (h : Coherent x st F) (size : y.length = x.length) :
    Coherent y (st.over y) F where
  whole := by
    rw [pending_over]
    exact List.take_append_drop _ y
  held := by
    change (y.take st.cursor.scanned.length).length + (st.over y).cursor.ahead.length ≤ _
    rw [h.length_front size, h.ahead_over size]
    exact h.held
  shows := h.shows
  nested := h.nested
  known := h.known
  placed := by
    change Placed F (y.take st.cursor.scanned.length).length
    rw [h.length_front size]
    exact h.placed

theorem Coherent.placed_atDelimiter (h : Coherent x st F) (m : Nat) (f : RawField)
    (rest : List UInt8) (k : Nat) : Placed (F.set m f.tag (placeOf st.cursor.scanned f))
      (atDelimiter st.cursor.scanned f rest k).bytes.length := by
  have size := Coherent.length_before_delimiter st.cursor.scanned f
  have held : st.cursor.scanned.length + f.wire.length ≤
      (atDelimiter st.cursor.scanned f rest k).bytes.length := by
    unfold atDelimiter
    rw [bytes_window, List.take_succ_cons, List.length_append, List.length_cons]
    omega
  exact fun j t p known => Nat.lt_of_lt_of_le (h.placed_set m f j t p known) held

theorem Veiled.faces (h : Veiled defs x y st F) (next : nextField st.pending = some (f, rest)) :
    ∃ g rest', Faces defs y st f rest g rest' := by
  obtain ⟨g, rest', next', replaces, others⟩ := h.pending.exists_next next
  exact ⟨g, rest', next, next', replaces, others⟩

namespace Faces

theorem split (h : Faces defs y st f rest g rest') :
    y = y.take st.cursor.scanned.length ++ (g.wire ++ rest') := by
  rw [← (nextField_eq_some h.next').1]
  exact (List.take_append_drop _ y).symm

theorem next_over (h : Faces defs y st f rest g rest') :
    nextField (st.over y).pending = some (g, rest') := by
  rw [pending_over]
  exact h.next'

/-- Behind the field the rest of the other stream begins. -/
theorem drop_eq (h : Faces defs y st f rest g rest') (coherent : Coherent x st F)
    (size : y.length = x.length) :
    y.drop (st.cursor.scanned ++ f.wire).length = rest' := by
  have length : (st.cursor.scanned ++ f.wire).length =
      (y.take st.cursor.scanned.length ++ g.wire).length := by
    rw [List.length_append, List.length_append, coherent.length_front size,
      h.replaces.length_wire]
  calc y.drop (st.cursor.scanned ++ f.wire).length
      = (y.take st.cursor.scanned.length ++ (g.wire ++ rest')).drop
          (st.cursor.scanned ++ f.wire).length := congrArg (List.drop _) h.split
    _ = (y.take st.cursor.scanned.length ++ g.wire ++ rest').drop
          (y.take st.cursor.scanned.length ++ g.wire).length := by
        rw [length, List.append_assoc]
    _ = rest' := List.drop_left

theorem passed_over (h : Faces defs y st f rest g rest') (coherent : Coherent x st F)
    (size : y.length = x.length) (k : Nat) :
    (window (st.cursor.scanned ++ f.wire) rest k).over y =
      window (y.take st.cursor.scanned.length ++ g.wire) rest' k := by
  have front : (y.take st.cursor.scanned.length ++ g.wire).length =
      (st.cursor.scanned ++ f.wire).length := by
    rw [List.length_append, List.length_append, coherent.length_front size,
      h.replaces.length_wire]
  have moved := over_window k front h.rest.length
  rwa [List.append_assoc, ← h.split] at moved

theorem atDelimiter_over (h : Faces defs y st f rest g rest') (coherent : Coherent x st F)
    (size : y.length = x.length) (k : Nat) :
    (atDelimiter st.cursor.scanned f rest k).over y =
      atDelimiter (y.take st.cursor.scanned.length) g rest' k := by
  have front : (y.take st.cursor.scanned.length ++ (g.text ++ equals :: g.value)).length =
      (st.cursor.scanned ++ (f.text ++ equals :: f.value)).length := by
    simp only [List.length_append, List.length_cons, coherent.length_front size,
      h.replaces.text, h.replaces.length]
  have back : (soh :: rest').length = (soh :: rest).length :=
    congrArg (· + 1) h.rest.length
  have whole : y.take st.cursor.scanned.length ++ (g.text ++ equals :: g.value) ++ soh :: rest' =
      y := by
    conv_rhs => rw [h.split]
    simp [RawField.wire]
  have moved := over_window (k + 1) front back
  rwa [whole] at moved

theorem entry_eq (h : Faces defs y st f rest g rest') (coherent : Coherent x st F)
    (size : y.length = x.length) :
    entry (y.take st.cursor.scanned.length) g = entry st.cursor.scanned f := by
  unfold entry RawField.token
  rw [h.replaces.tag, h.replaces.length, h.replaces.text, coherent.length_front size]

theorem behind_eq (h : Faces defs y st f rest g rest') (coherent : Coherent x st F)
    (size : y.length = x.length) : (st.over y).behind g = st.behind f := by
  unfold ParseState.behind
  rw [coherent.ahead_over size, h.replaces.length_wire]

/-- A field whose value is looked at is the same in both streams. -/
theorem byteAt_eq (h : Faces defs y st f rest g rest') (coherent : Coherent x st F)
    (size : y.length = x.length) (observed : defs.Observes f.tag) {i : Nat}
    (low : st.cursor.scanned.length ≤ i)
    (high : i < st.cursor.scanned.length + f.wire.length) : byteAt y i = byteAt x i := by
  obtain ⟨j, rfl⟩ := Nat.exists_eq_add_of_le low
  have inside : j < f.wire.length := Nat.lt_of_add_lt_add_left high
  have here : byteAt x (st.cursor.scanned.length + j) = byteAt f.wire j := by
    rw [← coherent.whole, (nextField_eq_some h.next).1, byteAt_append_right,
      byteAt_append_left inside]
  have inside' : j < g.wire.length := by
    rw [h.replaces.length_wire]
    exact inside
  have there : byteAt y ((y.take st.cursor.scanned.length).length + j) = byteAt f.wire j := by
    calc byteAt y ((y.take st.cursor.scanned.length).length + j)
        = byteAt (y.take st.cursor.scanned.length ++ (g.wire ++ rest'))
            ((y.take st.cursor.scanned.length).length + j) :=
          congrArg (fun z => byteAt z _) h.split
      _ = byteAt f.wire j := by
          rw [byteAt_append_right, byteAt_append_left inside', h.replaces.eq observed]
  rw [coherent.length_front size] at there
  rw [there, here]

end Faces

/-- With the next field stored, the values that matter are still the same. -/
theorem Veiled.reads_set (h : Veiled defs x y st F) (short : x.length ≤ 65536)
    (faces : Faces defs y st f rest g rest') (meets : st.Meets f rest) (m : Nat) :
    ReadsAlike defs x y (F.set m f.tag (placeOf st.cursor.scanned f)) := by
  intro j tag p known observed i low high
  simp only [Forest.set] at known
  split at known
  · rename_i here
    obtain ⟨-, rfl⟩ := here
    cases known
    obtain ⟨offset, length⟩ :=
      (placeOf_exact_iff st f).mpr (h.coherent.fits_of_short meets short)
    have size := f.length_wire
    rw [offset] at low high
    rw [length] at high
    unfold ParseState.valueStart at low high
    exact faces.byteAt_eq h.coherent h.size observed (by omega) (by omega)
  · exact h.reads j tag p known observed i low high

/-- The number at a place that has been read and is looked at. -/
theorem parseInt_over {c : Cursor} {tag : FieldTag} {p : UInt16 × UInt16} (part : c.bytes <+: x)
    (size : y.length = x.length) (placed : Placed F c.bytes.length) (reads : ReadsAlike defs x y F)
    (observed : defs.Observes tag) (known : F.place m tag = some p) :
    parseInt (c.over y).bytes p.1.toNat (p.1.toNat + p.2.toNat) =
      parseInt c.bytes p.1.toNat (p.1.toNat + p.2.toNat) := by
  have near := placed _ _ _ known
  have held := part.length_le
  have length : (c.over y).bytes.length = c.bytes.length := by
    rw [bytes_over, List.length_take]
    omega
  have part' : (c.over y).bytes <+: y := by
    rw [bytes_over]
    exact List.take_prefix _ y
  refine parseInt_congr fun i low at_place => ?_
  calc byteAt (c.over y).bytes i
      = byteAt y i := byteAt_prefix part' (by omega)
    _ = byteAt x i := reads _ _ _ known observed i low (by omega)
    _ = byteAt c.bytes i := Eq.symm <| byteAt_prefix part (by omega)

theorem countsAlike {c : Cursor} {map : Option Nat} {stack : List Nat}
    {groups : Option (List GroupDef)} {tag : FieldTag} (shows : a.Shows F) (part : c.bytes <+: x)
    (size : y.length = x.length) (placed : Placed F c.bytes.length) (reads : ReadsAlike defs x y F)
    (observed : defs.Observes tag) : CountsAlike y ⟨c, a, map, stack, groups⟩ tag := by
  intro parent field found
  obtain ⟨known, -, -⟩ := shows.get_some found
  have number := parseInt_over part size placed reads observed known
  change Arena.getIntOf (c.over y).bytes field = Arena.getIntOf c.bytes field
  unfold Arena.getIntOf
  rw [number]

theorem bulk_over (h : Veiled defs x y st F) (short : x.length ≤ 65536)
    (faces : Faces defs y st f rest g rest') (meets : st.Meets f rest)
    (shows : a.Shows (F.set m f.tag (placeOf st.cursor.scanned f))) (k : Nat) :
    bulk g.tag a m (atDelimiter (y.take st.cursor.scanned.length) g rest' k) =
      (bulk f.tag a m (atDelimiter st.cursor.scanned f rest k)).map fun r => (r.1, r.2.over y) := by
  rw [← faces.atDelimiter_over h.coherent h.size]
  unfold bulk
  rw [faces.replaces.tag]
  split
  · rename_i length
    have known := F.place_set m f.tag (placeOf st.cursor.scanned f)
    rw [length] at known shows
    have placed := h.coherent.placed_atDelimiter m f rest k
    have reads := h.reads_set short faces meets m
    rw [length] at placed reads
    refine readBody_over ?_ ?_
    · rw [whole_atDelimiter, ← (nextField_eq_some faces.next).1, h.coherent.whole, h.size]
    · rw [shows.getInt known, shows.getInt known, parseInt_over
        (h.coherent.part_atDelimiter meets k) h.size placed reads (.inl rfl) known]
  · rfl

theorem advance_atDelimiter (s : List UInt8) (f : RawField) (rest : List UInt8) (k : Nat) :
    (atDelimiter s f rest k).advance = window (s ++ f.wire) rest k := by
  unfold atDelimiter
  rw [advance_window]
  simp [RawField.wire]

/-- The bulk read only moves the end of the buffer. -/
theorem exists_of_bulk {S : List UInt8} {k : Nat} {complete : Bool} {c : Cursor}
    (read : bulk f.tag a m (atDelimiter S f rest k) = .ok (complete, c)) :
    ∃ k', c = atDelimiter S f rest k' := by
  unfold bulk at read
  split at read
  · obtain ⟨value, -, read⟩ := Loop.exists_of_bind read
    obtain ⟨withTrailer, -, read⟩ := Loop.exists_of_bind read
    obtain ⟨toRead, -, read⟩ := Loop.exists_of_bind read
    split at read
    · unfold atDelimiter at read
      rw [read_window] at read
      split at read
      · cases read
      · cases read
        exact ⟨k + toRead.toNat, congrArg (window _ _) (Nat.add_right_comm k 1 _)⟩
    · cases read
      exact ⟨k, rfl⟩
  · cases read
    exact ⟨k, rfl⟩

theorem Faces.inForce_eq (faces : Faces defs y st f rest g rest')
    (groups : Option (List GroupDef)) : inForce defs g groups = inForce defs f groups := by
  unfold inForce
  rw [faces.replaces.tag]
  split
  · rename_i type
    rw [faces.replaces.kept (.inr (.inl type))]
  · rfl

theorem Veiled.observes_inForce (h : Veiled defs x y st F) (f : RawField) :
    ∀ gd ∈ (inForce defs f st.msgGroups).getD [], defs.Observes gd.groupCountTag := by
  unfold inForce
  split
  · exact fun gd inside => .inr (.inr ⟨f.value, gd, inside, rfl⟩)
  · exact h.groups

/-- The group step behind a field that was stored. -/
theorem Veiled.groupStep_over (h : Veiled defs x y st F) (short : x.length ≤ 65536)
    (faces : Faces defs y st f rest g rest') (meets : st.Meets f rest)
    (shows : a.Shows (F.set m f.tag (placeOf st.cursor.scanned f))) (k : Nat) :
    groupStep m g.tag ⟨((atDelimiter st.cursor.scanned f rest k).over y).advance, a, some m,
        st.stack, inForce defs g st.msgGroups⟩ =
      (groupStep m f.tag ⟨(atDelimiter st.cursor.scanned f rest k).advance, a, some m, st.stack,
        inForce defs f st.msgGroups⟩).map (ParseState.over y) := by
  rw [faces.atDelimiter_over h.coherent h.size, advance_atDelimiter, advance_atDelimiter,
    ← faces.passed_over h.coherent h.size, faces.inForce_eq, faces.replaces.tag]
  have part : (window (st.cursor.scanned ++ f.wire) rest k).bytes <+: x := by
    rw [h.coherent.input_eq meets, bytes_window]
    exact (List.prefix_append_right_inj _).mpr (List.take_prefix k rest)
  have placed : Placed (F.set m f.tag (placeOf st.cursor.scanned f))
      (window (st.cursor.scanned ++ f.wire) rest k).bytes.length := by
    intro j t p known
    have near := h.coherent.placed_set m f j t p known
    rw [bytes_window, List.length_append, List.length_append]
    omega
  exact Fix.groupStep_over fun gd inside => countsAlike shows part h.size placed
    (h.reads_set short faces meets m) (h.observes_inForce f gd inside)

/-- A round behind a field that was stored. -/
theorem Veiled.round_stored (h : Veiled defs x y st F) (short : x.length ≤ 65536)
    (faces : Faces defs y st f rest g rest') (meets : st.Meets f rest)
    (meets' : (st.over y).Meets g rest') (current : st.map = some m)
    (stored : st.arena.set m (entry st.cursor.scanned f) = .ok a)
    (shows : a.Shows (F.set m f.tag (placeOf st.cursor.scanned f))) :
    parseField defs (st.over y) =
      (parseField defs st).map (Loop.Step.map (ParseState.over y) (ParseState.over y)) := by
  have stored' : (st.over y).arena.set m (entry (st.over y).cursor.scanned g) = .ok a := by
    change st.arena.set m (entry (y.take st.cursor.scanned.length) g) = .ok a
    rw [faces.entry_eq h.coherent h.size]
    exact stored
  have front : (st.over y).cursor.scanned = y.take st.cursor.scanned.length := rfl
  rw [Coherent.round_stored meets current stored, Coherent.round_stored meets' current stored',
    faces.behind_eq h.coherent h.size, front, bulk_over h short faces meets shows]
  cases read : bulk f.tag a m (atDelimiter st.cursor.scanned f rest (st.behind f)) with
  | error e => rfl
  | ok outcome =>
      obtain ⟨complete, c⟩ := outcome
      obtain ⟨k, rfl⟩ := exists_of_bulk read
      cases complete with
      | false => rfl
      | true =>
          change Loop.Step.next <$> groupStep m g.tag
            ⟨((atDelimiter st.cursor.scanned f rest k).over y).advance, a, some m, st.stack,
              inForce defs g st.msgGroups⟩ = _
          rw [h.groupStep_over short faces meets shows k]
          dsimp only
          cases groupStep m f.tag ⟨(atDelimiter st.cursor.scanned f rest k).advance, a, some m,
            st.stack, inForce defs f st.msgGroups⟩ with
          | error e => rfl
          | ok st' => rfl

/-- A round in which the streams end. -/
theorem Veiled.round_end (h : Veiled defs x y st F) (unended : nextField st.pending = none)
    (fits : st.cursor.scanned.length + st.pending.length ≤ maxMessageSize) :
    parseField defs (st.over y) =
      (parseField defs st).map (Loop.Step.map (ParseState.over y) (ParseState.over y)) := by
  have unended' : nextField (st.over y).pending = none := by
    rw [pending_over]
    exact h.pending.next_none unended
  have fits' : (st.over y).cursor.scanned.length + (st.over y).pending.length ≤
      maxMessageSize := by
    rw [pending_over, h.pending.length]
    exact (h.coherent.length_front h.size).symm ▸ fits
  have empty : ([] : List UInt8).length = ([] : List UInt8).length := rfl
  have drained := over_window 0 h.size empty
  rw [List.append_nil] at drained
  rw [h.coherent.round_end defs unended fits,
    (h.coherent.over h.size).round_end defs unended' fits', ← drained]
  rfl

/-- A round that meets CheckSum. -/
theorem Veiled.round_last (h : Veiled defs x y st F) (faces : Faces defs y st f rest g rest')
    (fits : st.cursor.scanned.length + f.wire.length ≤ maxMessageSize)
    (fits' : (st.over y).cursor.scanned.length + g.wire.length ≤ maxMessageSize)
    (last : f.tag = .checkSum) :
    parseField defs (st.over y) =
      (parseField defs st).map (Loop.Step.map (ParseState.over y) (ParseState.over y)) := by
  have front : (st.over y).cursor.scanned = y.take st.cursor.scanned.length := rfl
  rw [Coherent.round_last faces.next fits last, Coherent.round_last faces.next_over fits'
    (faces.replaces.tag.trans last), faces.behind_eq h.coherent h.size, front,
    ← faces.atDelimiter_over h.coherent h.size]
  rfl

/-- A round does the same on both streams. -/
theorem Veiled.round_over (h : Veiled defs x y st F) (short : x.length ≤ 65536) :
    parseField defs (st.over y) =
      (parseField defs st).map (Loop.Step.map (ParseState.over y) (ParseState.over y)) := by
  have other := h.coherent.over h.size
  have front : (st.over y).cursor.scanned.length = st.cursor.scanned.length :=
    h.coherent.length_front h.size
  by_cases excess : maxMessageSize < st.cursor.scanned.length + demand st.pending
  · have excess' : maxMessageSize <
        (st.over y).cursor.scanned.length + demand (st.over y).pending := by
      rwa [pending_over, h.pending.demand_eq, front]
    rw [h.coherent.round_excess defs excess, other.round_excess defs excess']
    rfl
  cases next : nextField st.pending with
  | none =>
      rw [demand_end next] at excess
      exact h.round_end next (Nat.le_of_not_lt excess)
  | some parts =>
      obtain ⟨f, rest⟩ := parts
      obtain ⟨g, rest', faces⟩ := h.faces next
      rw [demand_field next] at excess
      have fits := Nat.le_of_not_lt excess
      have fits' : (st.over y).cursor.scanned.length + g.wire.length ≤ maxMessageSize := by
        rwa [faces.replaces.length_wire, front]
      by_cases last : f.tag = .checkSum
      · exact h.round_last faces fits fits' last
      have meets : st.Meets f rest := ⟨next, fits, last⟩
      have meets' : (st.over y).Meets g rest' :=
        ⟨faces.next_over, fits', fun same => last (faces.replaces.tag.symm.trans same)⟩
      cases current : st.map with
      | none =>
          rw [Coherent.round_null meets current, Coherent.round_null meets' current]
          rfl
      | some m =>
          by_cases takes : st.Takes m f.tag
          · obtain ⟨a, stored, shows⟩ := h.coherent.exists_stored takes
            exact h.round_stored short faces meets meets' current stored shows
          · have refuses : ¬ (st.over y).Takes m g.tag := by
              rw [faces.replaces.tag]
              exact takes
            rw [h.coherent.round_full meets current takes,
              other.round_full meets' current refuses]
            rfl

theorem Grouped.msgGroups_eq {input : List UInt8} {c : Cursor} {tag : FieldTag} {stack : List Nat}
    {groups : Option (List GroupDef)} (grouped : Grouped input c a F m tag stack groups (.ok st)) :
    st.msgGroups = groups := by
  cases grouped <;> rfl

theorem ReadsAlike.extends (h : ReadsAlike defs x y F) {tag : FieldTag} {stack : List Nat}
    {groups : Option (List GroupDef)} {F' : Forest}
    (grown : Extends x maxMessageSize F m tag stack groups F') : ReadsAlike defs x y F' := by
  cases grown with
  | same quiet => exact h
  | graft due inside room => exact h

theorem Veiled.next (h : Veiled defs x y st F) (short : x.length ≤ 65536)
    (round : parseField defs st = .ok (.next st')) : ∃ F', Veiled defs x y st' F' := by
  have outcome := h.coherent.round defs
  rw [round] at outcome
  cases outcome with
  | @next f rest m a _ F' proceeds stored shows step grouped grown coherent =>
      obtain ⟨g, rest', faces⟩ := h.faces proceeds.meets.next
      have reads := (h.reads_set short faces proceeds.meets m).extends grown
      refine ⟨F', coherent, h.size, ?_, reads, ?_⟩
      · have pending : st'.pending = rest := by
          unfold ParseState.pending
          rw [grouped.cursor_eq]
          exact List.take_append_drop _ rest
        have scanned : st'.cursor.scanned = st.cursor.scanned ++ f.wire := by
          rw [grouped.cursor_eq]
          rfl
        rw [pending, scanned, faces.drop_eq h.coherent h.size]
        exact faces.rest
      · rw [grouped.msgGroups_eq]
        exact h.observes_inForce f

end Rounds

section Parse

variable {defs : GroupDefs} {x y : List UInt8}

/-- Values the parser does not look at can be replaced by others of their length, those of
CheckSum among them: the parse fails as before, or it makes the same maps, with the same
fields at the same places, of the bytes of the other stream. -/
theorem parse_looks_at_observed (hidden : Disguised defs x y) (short : x.length ≤ 65536)
    (msg : FixMessage maxMessageSize) :
    FixMessage.parse y msg defs = (FixMessage.parse x msg defs).map fun r =>
      (⟨y.take r.1.msgBytes.length, r.1.arena⟩, y.drop r.1.msgBytes.length) := by
  obtain ⟨buf, reset, used⟩ := reset_single msg
  have start : Veiled defs x y (ParseState.start buf x) .root := {
    coherent := coherent_start used x
    size := hidden.length
    pending := hidden
    reads := fun _ _ _ known => nomatch known
    groups := fun _ inside => absurd inside List.not_mem_nil }
  have run := Loop.run_map .unfinishedLoop (fun st => ∃ F, Veiled defs x y st F)
    (ParseState.over y) (ParseState.over y) (fun st ⟨_, h⟩ => h.round_over short)
    (fun st st' ⟨_, h⟩ round => h.next short round) (x.length + 1) ⟨_, start⟩
  change Loop.run .unfinishedLoop (parseField defs) (x.length + 1) (ParseState.start buf y) = _
    at run
  rw [parse_of_reset reset, parse_of_reset reset, hidden.length, run]
  cases Loop.run .unfinishedLoop (parseField defs) (x.length + 1) (ParseState.start buf x) with
  | error e => rfl
  | ok st =>
      refine congrArg Except.ok (Prod.ext ?_ ?_)
      · exact congrArg (FixMessage.mk · st.arena) (bytes_over y st.cursor)
      · exact input_over y st.cursor

end Parse

def maskedLegsStream : List UInt8 :=
  ascii "35=s" ++ soh :: (ascii "555=2" ++ soh :: (ascii "600=*" ++ soh ::
    (ascii "600=*" ++ [soh])))

theorem legSymbol_hidden : ¬ legDefs.Observes .legSymbol := by
  rintro (length | type | ⟨msgType, gd, inside, counts⟩)
  · cases length
  · cases type
  · by_cases leg : msgType = ascii "s"
    · subst leg
      obtain rfl : gd = ⟨.noLegs, .legSymbol⟩ := List.mem_singleton.mp inside
      cases counts
    · have none_else : legDefs.defs msgType = none := Function.update_of_ne leg _ _
      rw [none_else] at inside
      cases inside

theorem disguised_maskedLegs : Disguised legDefs twoLegsStream maskedLegsStream := by
  have tag : (stoft (ascii "600")).getD .invalid = .legSymbol := by decide +kernel
  have masked : ∀ v : UInt8, v ≠ soh →
      Replaces legDefs ⟨ascii "600", [v]⟩ ⟨ascii "600", ascii "*"⟩ := by
    intro v free
    have text : equals ∉ ascii "600" := by decide
    refine ⟨⟨text, by simpa using Ne.symm free⟩, ⟨text, by decide⟩, rfl, rfl, ?_⟩
    intro observed
    change legDefs.Observes ((stoft (ascii "600")).getD .invalid) at observed
    rw [tag] at observed
    exact absurd observed legSymbol_hidden
  exact ⟨[⟨ascii "35", ascii "s"⟩, ⟨ascii "555", ascii "2"⟩, ⟨ascii "600", [65]⟩,
      ⟨ascii "600", [66]⟩],
    [⟨ascii "35", ascii "s"⟩, ⟨ascii "555", ascii "2"⟩, ⟨ascii "600", ascii "*"⟩,
      ⟨ascii "600", ascii "*"⟩], [], by decide +kernel, by decide +kernel,
    .cons (.refl ⟨by decide, by decide⟩) (.cons (.refl ⟨by decide, by decide⟩)
      (.cons (masked 65 (by decide)) (.cons (masked 66 (by decide)) .nil)))⟩

/-- The symbols of two legs are masked. -/
theorem parse_looks_at_observed_two_legs :
    FixMessage.parse maskedLegsStream (emptyMessage admits_2048) legDefs =
      (FixMessage.parse twoLegsStream (emptyMessage admits_2048) legDefs).map fun r =>
        (⟨maskedLegsStream.take r.1.msgBytes.length, r.1.arena⟩,
          maskedLegsStream.drop r.1.msgBytes.length) :=
  parse_looks_at_observed disguised_maskedLegs (by decide +kernel) (emptyMessage admits_2048)

end FastLittleMarket.Fix
