import FastLittleMarket.Fix.Heap
import FastLittleMarket.Fix.Numbers
import FastLittleMarket.Fix.Scan

/-!
The parse loop on a known sequence of fields, without groups. Each field is one
round; the fields of a text are put into the field list in their order, at the
places where they stand.
-/

namespace FastLittleMarket.Fix

open Cursor

variable {maxMessageSize : Nat}

theorem parseField_field (defs : GroupDefs) {f : RawField} (delimited : f.Delimited)
    (notLast : f.tag ≠ .checkSum) (notLength : f.tag ≠ .bodyLength) {s : List UInt8}
    (rest : List UInt8) (n : Nat) (fits : s.length + f.wire.length ≤ maxMessageSize)
    {a a' : Arena maxMessageSize} {map : Nat} (stack : List Nat)
    (groups : Option (List GroupDef))
    (stored : a.set map (Field.plain f.tag (f.token s.length).offset f.value.length) = .ok a') :
    parseField defs ⟨window s (f.wire ++ rest) n, a, some map, stack, groups⟩ =
      Loop.Step.next <$> groupStep map f.tag
        ⟨window (s ++ f.wire) rest (n - f.wire.length), a', some map, stack,
          if f.tag = .msgType then defs.defs f.value else groups⟩ := by
  have scan := scanToken_field delimited rest n fits
  have value : ((window (s ++ (f.text ++ equals :: f.value)) (soh :: rest)
      (n - f.wire.length + 1)).bytes.drop (f.token s.length).offset).take f.value.length =
        f.value := by
    have split : s ++ (f.text ++ equals :: f.value) = s ++ f.text ++ [equals] ++ f.value := by
      simp
    have place : (f.token s.length).offset = (s ++ f.text ++ [equals]).length := by
      simp [RawField.token, Nat.add_assoc]
    rw [bytes_window, split, place, List.append_assoc (s ++ f.text ++ [equals]),
      List.drop_left, List.take_left]
  have behind : s ++ (f.text ++ equals :: f.value) ++ [soh] = s ++ f.wire := by
    simp [RawField.wire]
  unfold parseField
  simp only [scan, bind, Except.bind, pure, Except.pure]
  simp only [RawField.token] at stored value ⊢
  simp only [notLast, notLength, if_false, stored, value, advance_window, behind,
    Bool.not_true, Bool.false_eq_true]
  generalize groupStep map f.tag _ = out
  cases out <;> rfl

/-- The round that stores BodyLength goes on from where the bulk read leaves it. -/
theorem parseField_bodyLength {defs : GroupDefs} {f : RawField} (delimited : f.Delimited)
    (length : f.tag = .bodyLength) {s rest : List UInt8} {n : Nat}
    (fits : s.length + f.wire.length ≤ maxMessageSize) {a a' : Arena maxMessageSize}
    {map : Nat} {stack : List Nat} {groups : Option (List GroupDef)}
    (stored : a.set map (Field.plain f.tag (f.token s.length).offset f.value.length) = .ok a') :
    parseField defs ⟨window s (f.wire ++ rest) n, a, some map, stack, groups⟩ =
      match readBody a' map (window (s ++ (f.text ++ equals :: f.value)) (soh :: rest)
        (n - f.wire.length + 1)) with
      | .error e => .error e
      | .ok (true, c) =>
          Loop.Step.next <$> groupStep map .bodyLength ⟨c.advance, a', some map, stack, groups⟩
      | .ok (false, c) => .ok (.exit ⟨c, a', some map, stack, groups⟩) := by
  have scan := scanToken_field delimited rest n fits
  have notLast : FieldTag.bodyLength ≠ .checkSum := by decide
  have notType : FieldTag.bodyLength ≠ .msgType := by decide
  unfold parseField
  simp only [scan, bind, Except.bind, pure, Except.pure]
  simp only [RawField.token, length] at stored ⊢
  simp only [notLast, notType, if_false, if_true, stored]
  generalize readBody a' map _ = out
  rcases out with e | ⟨complete, c⟩
  · rfl
  · cases complete with
    | false => rfl
    | true =>
        simp only [Bool.not_true, Bool.false_eq_true, if_false]
        generalize groupStep map .bodyLength _ = out
        cases out <;> rfl

theorem parseField_checkSum {defs : GroupDefs} {f : RawField} (delimited : f.Delimited)
    (last : f.tag = .checkSum) {s rest : List UInt8} {n : Nat}
    (fits : s.length + f.wire.length ≤ maxMessageSize) {a : Arena maxMessageSize}
    {map : Option Nat} {stack : List Nat} {groups : Option (List GroupDef)} :
    parseField defs ⟨window s (f.wire ++ rest) n, a, map, stack, groups⟩ =
      .ok (.exit ⟨window (s ++ (f.text ++ equals :: f.value)) (soh :: rest)
        (n - f.wire.length + 1), a, map, stack, groups⟩) := by
  have scan := scanToken_field delimited rest n fits
  unfold parseField
  simp only [scan, bind, Except.bind, pure, Except.pure, RawField.token, last, if_true]

theorem parseField_end {defs : GroupDefs} {text value : List UInt8}
    (delimited : equals ∉ text) (free : soh ∉ value) {s : List UInt8} {n : Nat}
    (fits : s.length + text.length + value.length < maxMessageSize) {a : Arena maxMessageSize}
    {map : Option Nat} {stack : List Nat} {groups : Option (List GroupDef)} :
    parseField defs ⟨window s (text ++ equals :: value) n, a, map, stack, groups⟩ =
      .ok (.exit ⟨window (s ++ (text ++ equals :: value)) [] 0, a, map, stack, groups⟩) := by
  have scan := scanToken_end delimited free n fits
  unfold parseField
  simp only [scan, bind, Except.bind, pure, Except.pure]

section Flat

/-- The arena of a message without groups. -/
def Heap.single (buf : MessageBuffer maxMessageSize) (l : FieldList) : Arena maxMessageSize :=
  ⟨buf, [⟨none, l⟩]⟩

theorem set_single {b : MessageBuffer maxMessageSize} {l l' : FieldList} {f : Field}
    (put : KeyedList.put Field.takeOverMerge l f = some l') :
    (Heap.single b l).set FixMessage.root f = .ok (.single b l') := by
  have cell : (Heap.single b l).cells FixMessage.root = some ⟨none, l⟩ := rfl
  exact Heap.set_cell cell put

theorem set_single_full {b : MessageBuffer maxMessageSize} {l : FieldList} {f : Field}
    (full : KeyedList.put Field.takeOverMerge l f = none) :
    (Heap.single b l).set FixMessage.root f = .error .fieldListFull := by
  have cell : (Heap.single b l).cells FixMessage.root = some ⟨none, l⟩ := rfl
  obtain ⟨fresh, crowded⟩ := KeyedList.put_eq_none.mp full
  exact Heap.set_full cell fresh crowded

/-- The group definitions of the message type, if any, are none. -/
def Quiet (groups : Option (List GroupDef)) : Prop := groups.getD [] = []

theorem groupStep_quiet {map : Nat} {tag : FieldTag} {st : ParseState maxMessageSize}
    (quiet : Quiet st.msgGroups) : groupStep map tag st = .ok st := by
  unfold groupStep
  cases h : st.msgGroups with
  | none => rfl
  | some gds =>
      have none_left : gds = [] := by simpa [Quiet, h] using quiet
      rw [none_left]
      rfl

/-- Fields that a message without groups stores as they stand. -/
structure Storable (defs : GroupDefs) (f : RawField) : Prop where
  delimited : f.Delimited
  notLast : f.tag ≠ .checkSum
  notLength : f.tag ≠ .bodyLength
  quiet : f.tag = .msgType → Quiet (defs.defs f.value)

def wireAll (fs : List RawField) : List UInt8 := fs.flatMap RawField.wire

/-- The stored fields of `fs`, the first of which starts at `start`. -/
def places : Nat → List RawField → List Field
  | _, [] => []
  | start, f :: fs =>
      Field.plain f.tag (f.token start).offset f.value.length :: places (start + f.wire.length) fs

@[simp] theorem wireAll_nil : wireAll [] = [] := rfl

@[simp] theorem wireAll_cons (f : RawField) (fs : List RawField) :
    wireAll (f :: fs) = f.wire ++ wireAll fs := rfl

theorem map_tag_places (fs : List RawField) (start : Nat) :
    (places start fs).map Field.tag = fs.map RawField.tag := by
  induction fs generalizing start with
  | nil => rfl
  | cons f fs ih => simp [places, Field.plain, ih]

theorem round_quiet {defs : GroupDefs} {f : RawField} (delimited : f.Delimited)
    (notLast : f.tag ≠ .checkSum) (notLength : f.tag ≠ .bodyLength)
    (keeps : f.tag = .msgType → Quiet (defs.defs f.value)) (buf : MessageBuffer maxMessageSize)
    {s : List UInt8} (rest : List UInt8) (n : Nat) {groups : Option (List GroupDef)}
    (quiet : Quiet groups) (fits : s.length + f.wire.length ≤ maxMessageSize) {l l' : FieldList}
    (put : KeyedList.put Field.takeOverMerge l
      (Field.plain f.tag (f.token s.length).offset f.value.length) = some l') :
    ∃ groups', Quiet groups' ∧
      parseField defs ⟨window s (f.wire ++ rest) n, .single buf l, some FixMessage.root, [],
        groups⟩ =
        .ok (.next ⟨window (s ++ f.wire) rest (n - f.wire.length), .single buf l',
          some FixMessage.root, [], groups'⟩) := by
  have quiet' : Quiet (if f.tag = .msgType then defs.defs f.value else groups) := by
    split
    · exact keeps ‹_›
    · exact quiet
  refine ⟨_, quiet', ?_⟩
  rw [parseField_field defs delimited notLast notLength rest n fits [] groups (set_single put),
    groupStep_quiet quiet']
  rfl

/-- A sequence of storable fields takes one round each. -/
theorem reaches_fields {defs : GroupDefs} {fs : List RawField}
    (storable : ∀ f ∈ fs, Storable defs f) (buf : MessageBuffer maxMessageSize)
    {s : List UInt8} (rest : List UInt8) (n : Nat) {groups : Option (List GroupDef)}
    (quiet : Quiet groups)
    (fits : s.length + (wireAll fs).length ≤ maxMessageSize) {l l' : FieldList}
    (put : KeyedList.putAll Field.takeOverMerge l (places s.length fs) = some l') :
    ∃ groups', Quiet groups' ∧
      Loop.Reaches (parseField defs) fs.length
        ⟨window s (wireAll fs ++ rest) n, .single buf l, some FixMessage.root, [], groups⟩
        ⟨window (s ++ wireAll fs) rest (n - (wireAll fs).length), .single buf l',
          some FixMessage.root, [], groups'⟩ := by
  induction fs generalizing s n l groups with
  | nil =>
      obtain rfl := Option.some.inj put
      refine ⟨groups, quiet, ?_⟩
      simpa using Loop.Reaches.here _
  | cons f fs ih =>
      have first := storable f (by simp)
      simp only [places, KeyedList.putAll] at put
      split at put
      · cases put
      · rename_i l₁ put₁
        rw [wireAll_cons, List.length_append] at fits
        have room : s.length + f.wire.length ≤ maxMessageSize := by omega
        obtain ⟨groups₁, quiet₁, round⟩ := round_quiet first.delimited first.notLast
          first.notLength first.quiet buf (wireAll fs ++ rest) n quiet room put₁
        obtain ⟨groups', quiet', run⟩ := ih (fun g hg => storable g (by simp [hg])) quiet₁
          (s := s ++ f.wire) (n := n - f.wire.length)
          (by rw [List.length_append]; omega) (by rwa [List.length_append])
        refine ⟨groups', quiet', ?_⟩
        have joined := Loop.Reaches.next round run
        rwa [List.append_assoc, ← wireAll_cons, Nat.sub_sub, ← List.length_append,
          ← wireAll_cons, ← List.append_assoc, ← wireAll_cons] at joined

theorem fails_full {defs : GroupDefs} {fs : List RawField}
    (storable : ∀ f ∈ fs, Storable defs f) (buf : MessageBuffer maxMessageSize)
    {s : List UInt8} (rest : List UInt8) (n : Nat) {groups : Option (List GroupDef)}
    (quiet : Quiet groups)
    (fits : s.length + (wireAll fs).length ≤ maxMessageSize) {l : FieldList}
    (full : KeyedList.putAll Field.takeOverMerge l (places s.length fs) = none) :
    ∃ k st, k ≤ fs.length ∧
      Loop.Reaches (parseField defs) k
        ⟨window s (wireAll fs ++ rest) n, .single buf l, some FixMessage.root, [], groups⟩ st ∧
      parseField defs st = .error .fieldListFull := by
  induction fs generalizing s n l groups with
  | nil => cases full
  | cons f fs ih =>
      have first := storable f (by simp)
      rw [wireAll_cons, List.length_append] at fits
      simp only [places, KeyedList.putAll] at full
      split at full
      · rename_i refused
        refine ⟨0, _, Nat.zero_le _, .here _, ?_⟩
        have room : s.length + f.wire.length ≤ maxMessageSize := by omega
        have scan := scanToken_field first.delimited (wireAll fs ++ rest) n room
        have stored := set_single_full (b := buf) refused
        rw [wireAll_cons, List.append_assoc]
        unfold parseField
        simp only [scan, bind, Except.bind, pure, Except.pure]
        simp only [RawField.token, first.notLast, if_false] at stored ⊢
        rw [stored]
      · rename_i l₁ put₁
        have room : s.length + f.wire.length ≤ maxMessageSize := by omega
        obtain ⟨groups₁, quiet₁, round⟩ := round_quiet first.delimited first.notLast
          first.notLength first.quiet buf (wireAll fs ++ rest) n quiet room put₁
        obtain ⟨k, st, le, run, fails⟩ := ih (fun g hg => storable g (by simp [hg])) quiet₁
          (s := s ++ f.wire) (n := n - f.wire.length)
          (by rw [List.length_append]; omega) (by rwa [List.length_append])
        refine ⟨k + 1, st, Nat.succ_le_succ le, ?_, fails⟩
        have joined := Loop.Reaches.next round run
        rwa [← List.append_assoc, ← wireAll_cons] at joined

/-- The number a stored BodyLength field is read as. -/
def announced (bytes : List UInt8) (offset length : Nat) : Except ParseFault Int :=
  parseInt bytes (offset % 2 ^ 16) (offset % 2 ^ 16 + length % 2 ^ 16)

theorem getInt_single {buf : MessageBuffer maxMessageSize} {l l' : FieldList} {tag : FieldTag}
    {offset length : Nat}
    (put : KeyedList.put Field.takeOverMerge l (Field.plain tag offset length) = some l')
    (bytes : List UInt8) :
    (Heap.single buf l').getInt bytes FixMessage.root tag =
      some <$> announced bytes offset length := by
  have found := KeyedList.find_put put tag
  have key : (Field.plain tag offset length).tag = tag := rfl
  rw [if_pos key] at found
  obtain ⟨f, hf, hoffset, hlength⟩ : ∃ f, l'.find tag = some f ∧
      f.offset = UInt16.ofNat offset ∧ f.length = UInt16.ofNat length := by
    refine ⟨_, found, ?_⟩
    cases l.find tag with
    | none => exact ⟨rfl, rfl⟩
    | some y => exact Prod.mk.inj (Field.place_takeOver y (Field.plain tag offset length))
  simp only [Arena.getInt, Heap.get, Heap.single, Heap.deref, FixMessage.root, bind,
    Except.bind, pure, Except.pure, List.getElem?_cons_zero, hf, hoffset, hlength, announced,
    UInt16.toNat_ofNat']

theorem read_window {S y : List UInt8} {k t : Nat} :
    (window S y k).read maxMessageSize t =
      if maxMessageSize < S.length + min (k + t) y.length then .error .bufferOverflow
      else .ok (decide (t ≤ y.length - k), window S y (k + t)) := by
  have held : (y.take k).length + ((y.drop k).take t).length = min (k + t) y.length := by
    simp only [List.length_take, List.length_drop]
    omega
  have joined : y.take k ++ (y.drop k).take t = y.take (k + t) := by
    rw [List.take_add]
  simp only [Cursor.read, window, Nat.add_assoc, held, joined, List.length_drop, List.drop_drop]

section Bulk

variable {a : Arena maxMessageSize} {map : Nat} {S rest : List UInt8} {k : Nat} {M : Int}

theorem length_ahead (held : k ≤ rest.length) :
    (window S (soh :: rest) (k + 1)).ahead.length = k + 1 := by
  simp only [window, List.length_take, List.length_cons]
  omega

/-- The bulk read, `k` bytes behind the delimiter being there, by the announced end. -/
theorem readBody_eq (held : k ≤ rest.length) (room : S.length + k < maxMessageSize)
    (value : a.getInt (window S (soh :: rest) (k + 1)).bytes map .bodyLength = .ok (some M))
    (low : -2 ^ 31 ≤ M + 7 - ((k + 1 : Nat) : Int)) (high : M + 7 < 2 ^ 31) :
    readBody a map (window S (soh :: rest) (k + 1)) =
      if maxMessageSize < S.length + 1 + min (max k (M + 6).toNat) rest.length then
        .error .bufferOverflow
      else .ok (decide ((M + 6).toNat ≤ rest.length),
        window S (soh :: rest) (max k (M + 6).toNat + 1)) := by
  have first : inInt (M + 7) = .ok (M + 7) := by
    exact inInt_ok ⟨by omega, high⟩
  have second : inInt (M + 7 - ((k + 1 : Nat) : Int)) = .ok (M + 7 - ((k + 1 : Nat) : Int)) := by
    exact inInt_ok ⟨low, by omega⟩
  unfold readBody
  simp only [value, bind, Except.bind, Option.getD_some, first, length_ahead held, second, pure,
    Except.pure]
  split
  · rename_i wanted
    have total : k + 1 + (M + 7 - ((k + 1 : Nat) : Int)).toNat = max k (M + 6).toNat + 1 := by
      omega
    have bytes : S.length + min (max k (M + 6).toNat + 1) (rest.length + 1) =
        S.length + 1 + min (max k (M + 6).toNat) rest.length := by omega
    have enough : (M + 7 - ((k + 1 : Nat) : Int)).toNat ≤ rest.length + 1 - (k + 1) ↔
        (M + 6).toNat ≤ rest.length := by omega
    rw [read_window, total, List.length_cons, bytes]
    simp only [enough]
  · rename_i enough
    have total : max k (M + 6).toNat = k := by omega
    rw [total, if_neg (by omega), decide_eq_true (by omega)]

theorem readBody_overflow (held : k ≤ rest.length)
    (value : a.getInt (window S (soh :: rest) (k + 1)).bytes map .bodyLength = .ok (some M))
    (out : M + 7 - ((k + 1 : Nat) : Int) < -2 ^ 31 ∨ 2 ^ 31 ≤ M + 7) :
    readBody a map (window S (soh :: rest) (k + 1)) = .error .intOverflow := by
  unfold readBody
  simp only [value, bind, Except.bind, Option.getD_some, length_ahead held]
  by_cases first : InInt (M + 7)
  · have second : ¬ InInt (M + 7 - ((k + 1 : Nat) : Int)) := by
      unfold InInt at first ⊢
      omega
    simp only [inInt_ok first, inInt_overflow second]
  · simp only [inInt_overflow first]

theorem readBody_error {e : ParseFault}
    (value : a.getInt (window S (soh :: rest) (k + 1)).bytes map .bodyLength = .error e) :
    readBody a map (window S (soh :: rest) (k + 1)) = .error e := by
  unfold readBody
  simp only [value, bind, Except.bind]

theorem readBody_window (rest : List UInt8)
    (value : a.getInt (S ++ [soh]) FixMessage.root .bodyLength = .ok (some M))
    (low : -2 ^ 31 ≤ M) (high : M + 7 < 2 ^ 31) (fits : S.length < maxMessageSize) :
    readBody a FixMessage.root (window S (soh :: rest) 1) =
      if maxMessageSize < S.length + min (1 + (M + 6).toNat) (rest.length + 1) then
        .error .bufferOverflow
      else .ok (decide ((M + 6).toNat ≤ rest.length),
        window S (soh :: rest) (1 + (M + 6).toNat)) := by
  have bytes : (window S (soh :: rest) (0 + 1)).bytes = S ++ [soh] := rfl
  rw [← bytes] at value
  have read := readBody_eq (Nat.zero_le _) fits value (by omega) high
  have held : S.length + 1 + min (max 0 (M + 6).toNat) rest.length =
      S.length + min (1 + (M + 6).toNat) (rest.length + 1) := by omega
  rw [held, Nat.zero_max, Nat.add_comm (M + 6).toNat 1] at read
  exact read

end Bulk

end Flat

end FastLittleMarket.Fix
