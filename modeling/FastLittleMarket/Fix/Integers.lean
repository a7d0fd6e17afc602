import FastLittleMarket.Fix.Encode
import FastLittleMarket.Fix.Reference
import FastLittleMarket.Fix.Rounds

/-!
Integers written by the builder and read back. The reader builds up the magnitude first
and negates it last, so that the least value of the type, whose magnitude the type does
not hold, is the one value it does not read.
-/

namespace FastLittleMarket.Fix

section Reader

variable {bound : Int}

theorem toChars_ne_nil (n : Nat) : toChars n ≠ [] := by
  intro empty
  have one : (toChars n).length ≤ 1 := by rw [empty]; decide
  have small : n < 10 := by simpa using (length_toChars_le (by decide)).mp one
  rw [toChars_of_lt small] at empty
  cases empty

variable (bound) in
theorem foldlM_toChars (n : Nat) (pos : 0 < bound) (pre post : List UInt8) :
    (bytesFrom (pre ++ (toChars n ++ post)) pre.length (toChars n).length).foldlM
        (digitStep bound) 0 =
      if (n : Int) < bound then .ok (n : Int) else .error .intOverflow := by
  have value := foldlM_digitStep (isDigit_toChars n) pos (n := 0) (by simpa using pos)
  rw [decimalFrom_toChars] at value
  rw [bytesFrom_append]
  exact value

variable {v : Int64}

theorem parseSigned_nonneg (sign : ¬ v.toInt < 0) (high : v.toInt < bound)
    (pre post : List UInt8) :
    parseSigned bound (pre ++ (toCharsInt v ++ post)) pre.length
      (pre.length + (toCharsInt v).length) = .ok v.toInt := by
  have text : toCharsInt v = toChars v.toInt.natAbs := if_neg sign
  have value : ((v.toInt.natAbs : Nat) : Int) = v.toInt := by omega
  have digits := foldlM_toChars bound v.toInt.natAbs (by omega) pre post
  have unsigned : byteAt (pre ++ (toChars v.toInt.natAbs ++ post)) pre.length ≠ 45 := by
    obtain ⟨d, ds, split⟩ := List.exists_cons_of_ne_nil (toChars_ne_nil v.toInt.natAbs)
    have digit := isDigit_toChars v.toInt.natAbs d (by rw [split]; simp)
    rw [split, List.cons_append, byteAt_append_cons]
    exact digit.ne_minus
  rw [value, if_pos high] at digits
  unfold parseSigned
  rw [text]
  simp only [unsigned, if_false, Nat.not_lt_of_le (Nat.le_add_right _ _), Nat.add_sub_cancel_left,
    digits]
  rfl

theorem parseSigned_neg (sign : v.toInt < 0) (low : -bound ≤ v.toInt) (pre post : List UInt8) :
    parseSigned bound (pre ++ (toCharsInt v ++ post)) pre.length
        (pre.length + (toCharsInt v).length) =
      if v.toInt = -bound then .error .intOverflow else .ok v.toInt := by
  have text : toCharsInt v = 45 :: toChars v.toInt.natAbs := if_pos sign
  have moved : pre ++ (45 :: toChars v.toInt.natAbs ++ post) =
      (pre ++ [45]) ++ (toChars v.toInt.natAbs ++ post) := by simp
  have digits := foldlM_toChars bound v.toInt.natAbs (by omega) (pre ++ [45]) post
  rw [List.length_append, List.length_singleton] at digits
  have minus : byteAt (pre ++ [45] ++ (toChars v.toInt.natAbs ++ post)) pre.length = 45 := by
    rw [← moved, List.cons_append, byteAt_append_cons]
  have inside : ¬ pre.length + ((toChars v.toInt.natAbs).length + 1) < pre.length + 1 := by omega
  have size : pre.length + ((toChars v.toInt.natAbs).length + 1) - (pre.length + 1) =
      (toChars v.toInt.natAbs).length := by omega
  unfold parseSigned
  rw [text, moved]
  simp only [minus, if_true, List.length_cons, inside, if_false, size, digits]
  by_cases least : v.toInt = -bound
  · rw [if_neg (by omega), if_pos least]
    rfl
  · have value : ((v.toInt.natAbs : Nat) : Int) * -1 = v.toInt := by omega
    have held : inRange bound v.toInt = .ok v.toInt := if_pos ⟨low, by omega⟩
    rw [if_pos (by omega), if_neg least]
    simp only [bind, Except.bind, value, held]

theorem parseSigned_toCharsInt (low : -bound ≤ v.toInt) (high : v.toInt < bound)
    (pre post : List UInt8) :
    parseSigned bound (pre ++ (toCharsInt v ++ post)) pre.length
        (pre.length + (toCharsInt v).length) =
      if v.toInt = -bound then .error .intOverflow else .ok v.toInt := by
  by_cases sign : v.toInt < 0
  · exact parseSigned_neg sign low pre post
  · rw [parseSigned_nonneg sign high, if_neg (by omega)]

end Reader

section Messages

variable {maxMessageSize : Nat} {msg : FixMessage maxMessageSize} {map : Nat} {tag : FieldTag}
  {text : List UInt8}

theorem exists_of_getString (read : msg.getString map tag = .ok (some text)) :
    ∃ field, msg.arena.get map tag = .ok (some field) ∧ msg.slice field = text := by
  obtain ⟨found, stored, read⟩ := Loop.exists_of_bind read
  cases found with
  | none => cases read
  | some field => exact ⟨field, stored, Option.some.inj (Except.ok.inj read)⟩

/-- The bytes of a field stand in the message as in a text of their own. -/
theorem byteAt_slice {field : Field} (designates : msg.slice field = text) {i : Nat}
    (low : field.offset.toNat ≤ i) (high : i < field.offset.toNat + field.length.toNat) :
    byteAt msg.msgBytes i =
      byteAt (List.replicate field.offset.toNat 0 ++ text) i := by
  obtain ⟨k, rfl⟩ := Nat.exists_eq_add_of_le low
  have size : (List.replicate field.offset.toNat (0 : UInt8)).length = field.offset.toNat :=
    List.length_replicate
  have inside : k < (msg.slice field).length := by
    simp only [FixMessage.slice, bytesFrom, List.length_map, List.length_range']
    omega
  have right := byteAt_append_right (List.replicate field.offset.toNat 0) text k
  rw [size] at right
  rw [right, ← designates]
  simp only [byteAt, List.getD_eq_getElem?_getD, List.getElem?_eq_getElem inside]
  simp [FixMessage.slice, bytesFrom, byteAt, List.getD_eq_getElem?_getD]

variable {v : Int64} {bound : Int}

theorem parseSigned_field {field : Field} (designates : msg.slice field = toCharsInt v)
    (low : -bound ≤ v.toInt) (high : v.toInt < bound) :
    parseSigned bound msg.msgBytes field.offset.toNat
        (field.offset.toNat + field.length.toNat) =
      if v.toInt = -bound then .error .intOverflow else .ok v.toInt := by
  have size : (List.replicate field.offset.toNat (0 : UInt8)).length = field.offset.toNat :=
    List.length_replicate
  have length : (toCharsInt v).length = field.length.toNat := by
    rw [← designates]
    simp [FixMessage.slice, bytesFrom]
  have some_char : 0 < field.length.toNat := by
    rw [← length]
    unfold toCharsInt
    split
    · exact Nat.succ_pos _
    · exact List.length_pos_iff.mpr (toChars_ne_nil _)
  have alone := parseSigned_toCharsInt low high (List.replicate field.offset.toNat 0) []
  rw [List.append_nil, size, length] at alone
  rw [← alone]
  refine parseSigned_congr fun i le inside => ?_
  exact byteAt_slice designates le (by omega)

theorem getLong_text (read : msg.getString map tag = .ok (some (toCharsInt v))) :
    msg.getLong map tag =
      if v.toInt = -2 ^ 63 then .error .intOverflow else .ok (some v.toInt) := by
  obtain ⟨field, stored, designates⟩ := exists_of_getString read
  have value := parseSigned_field designates v.le_toInt v.toInt_lt
  simp only [FixMessage.getLong, Arena.getLong, stored, bind, Except.bind, parseLong, value]
  split <;> rfl

theorem getInt_text (read : msg.getString map tag = .ok (some (toCharsInt v)))
    (low : -2 ^ 31 ≤ v.toInt) (high : v.toInt < 2 ^ 31) :
    msg.getInt map tag =
      if v.toInt = -2 ^ 31 then .error .intOverflow else .ok (some v.toInt) := by
  obtain ⟨field, stored, designates⟩ := exists_of_getString read
  have value := parseSigned_field designates low high
  simp only [FixMessage.getInt, Arena.getInt, stored, bind, Except.bind, parseInt, value]
  split <;> rfl

end Messages

section RoundTrip

/-- What `addField` of the integer writes, and what is read back of it in any field of any
parsed message that holds the text. -/
structure ReadsBack (v : Int64) : Prop where
  written : ∀ (b b' : Builder) (tag : FieldTag),
    (Builder.addField tag (.int64 v)).run b = .ok () b' →
      b'.message = b.message ++ encodeField tag (toCharsInt v)
  buffer : (toCharsInt v).length ≤ 20
  long : ∀ {maxMessageSize : Nat} (old msg : FixMessage maxMessageSize) (defs : GroupDefs)
    (input rest : List UInt8) (map : Nat) (tag : FieldTag),
    FixMessage.parse input old defs = .ok (msg, rest) →
      msg.getString map tag = .ok (some (toCharsInt v)) →
        msg.getLong map tag = .ok (some v.toInt)
  int : -2 ^ 31 ≤ v.toInt → v.toInt < 2 ^ 31 →
    ∀ {maxMessageSize : Nat} (old msg : FixMessage maxMessageSize) (defs : GroupDefs)
      (input rest : List UInt8) (map : Nat) (tag : FieldTag),
      FixMessage.parse input old defs = .ok (msg, rest) →
        msg.getString map tag = .ok (some (toCharsInt v)) →
          msg.getInt map tag = .ok (some v.toInt)

theorem length_toCharsInt_le (v : Int64) : (toCharsInt v).length ≤ 20 := by
  have low := v.le_toInt
  have high := v.toInt_lt
  have digits : (toChars v.toInt.natAbs).length ≤ 19 :=
    (length_toChars_le (by decide)).mpr (by omega)
  unfold toCharsInt
  split
  · exact Nat.succ_le_succ digits
  · exact Nat.le_trans digits (by decide)

theorem soh_notMem_toCharsInt (v : Int64) : soh ∉ toCharsInt v := by
  have free := soh_notMem_of_digits (isDigit_toChars v.toInt.natAbs)
  unfold toCharsInt
  split
  · exact List.not_mem_cons_of_ne_of_not_mem (by decide) free
  · exact free

theorem exists_parsed (v : Int64) :
    ∃ (msg : FixMessage 600) (rest : List UInt8),
      FixMessage.parse (rawField (.orderQty, .int64 v)).wire (emptyMessage admits_600)
        GroupDefs.empty = .ok (msg, rest) ∧
      msg.getString FixMessage.root .orderQty = .ok (some (toCharsInt v)) := by
  generalize named : rawField (.orderQty, .int64 v) = f
  have text : f.text = ascii "38" := by rw [← named]; rfl
  have value : f.value = toCharsInt v := by rw [← named]; rfl
  have tag : f.tag = .orderQty := by rw [← named]; exact tag_rawField (.orderQty, .int64 v)
  have whole : wireAll [f] = f.wire := List.append_nil _
  have size : f.wire.length ≤ 24 := by
    have short := length_toCharsInt_le v
    have two : f.text.length = 2 := by rw [text]; decide
    rw [RawField.length_wire, value]
    omega
  have delimited : f.Delimited :=
    ⟨by rw [text]; decide, by rw [value]; exact soh_notMem_toCharsInt v⟩
  have storable : ∀ g ∈ [f], Storable GroupDefs.empty g := by
    intro g hg
    obtain rfl := List.mem_singleton.mp hg
    exact ⟨delimited, by rw [tag]; decide, by rw [tag]; decide, fun _ => rfl⟩
  have few : ([f].map RawField.tag).dedup.length ≤ fixMsgMaxFieldCount := by
    simp [fixMsgMaxFieldCount]
  obtain ⟨l, stored⟩ := exists_storeAll.mpr few
  obtain ⟨buf, parsed⟩ :=
    parse_wireAll storable (by rw [whole]; omega) stored (emptyMessage admits_600)
  have near : Near [f] := near_of_length (by rw [whole]; omega)
  have read := getString_stored stored near buf [] .orderQty
  have last : KeyedList.lastOf RawField.tag .orderQty [f] = some f := by
    rw [← tag]
    exact KeyedList.lastOf_concat RawField.tag f []
  rw [List.append_nil, whole, last, Option.map_some, value] at read
  rw [whole] at parsed
  exact ⟨_, _, parsed, read⟩

/-- An integer is written and read back just when its magnitude is within the type it is
read as. -/
theorem integer_round_trip_iff (v : Int64) :
    ReadsBack v ↔ v.toInt ≠ -2 ^ 63 ∧ v.toInt ≠ -2 ^ 31 := by
  constructor
  · intro reads
    obtain ⟨msg, rest, parsed, text⟩ := exists_parsed v
    constructor
    · intro least
      have read := reads.long _ msg _ _ _ _ _ parsed text
      rw [getLong_text text, if_pos least] at read
      cases read
    · intro least
      have read := reads.int (by omega) (by omega) _ msg _ _ _ _ _ parsed text
      rw [getInt_text text (by omega) (by omega), if_pos least] at read
      cases read
  · rintro ⟨long, int⟩
    refine ⟨?_, length_toCharsInt_le v, ?_, ?_⟩
    · intro b b' tag added
      obtain ⟨-, rfl⟩ := Builder.addField_ok_iff.mp added
      exact Builder.message_account _
    · intro n old msg defs input rest map tag parsed text
      rw [getLong_text text, if_neg long]
    · intro low high n old msg defs input rest map tag parsed text
      rw [getInt_text text low high, if_neg int]

/-- The least value is written in twenty characters and not read back. -/
theorem least_not_read_back :
    toCharsInt Int64.minValue = ascii "-9223372036854775808" ∧ ¬ ReadsBack Int64.minValue := by
  refine ⟨by decide, fun reads => ?_⟩
  obtain ⟨msg, rest, parsed, text⟩ := exists_parsed Int64.minValue
  have read := reads.long _ msg _ _ _ _ _ parsed text
  rw [getLong_text text, if_pos (by decide)] at read
  cases read

end RoundTrip

end FastLittleMarket.Fix
