import FastLittleMarket.Fix.Encode
import FastLittleMarket.Fix.Lookup

/-!
Decoding an encoded message: every message that the builder finishes is read back as
the fields it was made of. What the builder refuses to finish are the messages that
fit it, but not twice their trailer.
-/

namespace FastLittleMarket.Fix

open Builder

/-- Fields that a message can carry between its header and its checksum. -/
structure Sendable (fields : List (FieldTag × FieldValue)) : Prop where
  tags : ∀ f ∈ fields, f.1 ≠ .checkSum ∧ f.1 ≠ .bodyLength
  values : ∀ f ∈ fields, soh ∉ f.2.bytes

def lastValue (tag : FieldTag) (fields : List (FieldTag × FieldValue)) : Option (List UInt8) :=
  (KeyedList.lastOf Prod.fst tag fields).map fun f => f.2.bytes

variable {fields : List (FieldTag × FieldValue)} {tmp : Vector UInt8 6} {maxMessageSize : Nat}
  {l : FieldList}

theorem Sendable.storable (h : Sendable fields) :
    ∀ f ∈ fields.map rawField, Storable GroupDefs.empty f := by
  intro g hg
  obtain ⟨f, hf, rfl⟩ := List.mem_map.mp hg
  have tags := h.tags f hf
  refine ⟨⟨equals_notMem_of_digits (ftof_digits f.1), h.values f hf⟩, ?_, ?_, fun _ => rfl⟩
  · rw [tag_rawField]
    exact tags.1
  · rw [tag_rawField]
    exact tags.2

theorem framed_checkSum (tmp : Vector UInt8 6) (fields : List (FieldTag × FieldValue)) :
    soh ∉ (framed tmp fields).checkSum ∧ (framed tmp fields).checkSum.length = 4 := by
  obtain ⟨d₁, d₂, d₃, small₁, small₂, small₃, -, chars⟩ := checksumChars_eq (written tmp fields)
  have digits : (framed tmp fields).checkSum = [48, UInt8.ofNat (48 + d₁), UInt8.ofNat (48 + d₂),
      UInt8.ofNat (48 + d₃)] := by
    change (checksumChars (written tmp fields)).drop 3 = _
    rw [chars]
    rfl
  rw [digits]
  refine ⟨soh_notMem_of_digits ?_, rfl⟩
  simp only [List.mem_cons, List.not_mem_nil, or_false, forall_eq_or_imp, forall_eq]
  exact ⟨by decide, isDigit_digit small₁, isDigit_digit small₂, isDigit_digit small₃⟩

theorem framed_unended (h : Sendable fields) (tmp : Vector UInt8 6)
    (short : (bodyOf fields).length < 10 ^ 6)
    (fits : (framed tmp fields).cut.length ≤ maxMessageSize) :
    (framed tmp fields).Unended maxMessageSize GroupDefs.empty where
  beginString := show soh ∉ ascii "FIX.5.0" by decide
  near := show (ascii "FIX.5.0").length ≤ 65530 by decide
  digits := lengthDigits_isDigit short tmp
  numeral := List.ne_nil_of_length_eq_add_one (length_lengthDigits tmp _)
  short := by
    have size : (framed tmp fields).bodyLength.length = 6 := length_lengthDigits tmp _
    rw [size]
    decide
  length := decimalFrom_lengthDigits short tmp
  body := h.storable
  checkSum := framed_checkSum tmp fields
  fits := fits

theorem length_framed (tmp : Vector UInt8 6) (fields : List (FieldTag × FieldValue)) :
    (framed tmp fields).cut.length = encodedSize fields := by
  obtain ⟨d₁, d₂, d₃, -, -, -, -, chars⟩ := checksumChars_eq (written tmp fields)
  have trailer : (checksumChars (written tmp fields)).length = 7 := by
    rw [chars]
    rfl
  rw [cut_framed, List.length_append, length_written, trailer]
  rfl

theorem cut_eq_wireAll (m : Framed) : m.cut = wireAll m.fields ++ m.checkText := by
  simp [Framed.cut, Framed.fields, Framed.lead, RawField.wire]

theorem map_tag_framed (tmp : Vector UInt8 6) (fields : List (FieldTag × FieldValue)) :
    (framed tmp fields).fields.map RawField.tag =
      .beginString :: .bodyLength :: fields.map Prod.fst := by
  rw [Framed.fields, List.map_cons, List.map_cons, Framed.tag_beginField, Framed.tag_lengthField]
  exact congrArg _ (congrArg _ (map_tag_rawField fields))

theorem lastOf_framed (tmp : Vector UInt8 6) (fields : List (FieldTag × FieldValue))
    (tag : FieldTag) :
    KeyedList.lastOf RawField.tag tag (framed tmp fields).fields =
      (((KeyedList.lastOf Prod.fst tag fields).map rawField).or
        (if FieldTag.bodyLength = tag then some (framed tmp fields).lengthField else none)).or
        (if FieldTag.beginString = tag then some (framed tmp fields).beginField else none) := by
  have added : KeyedList.lastOf RawField.tag tag (fields.map rawField) =
      (KeyedList.lastOf Prod.fst tag fields).map rawField := by
    rw [KeyedList.lastOf_map]
    congr 2
    funext f
    exact tag_rawField f
  rw [Framed.fields, KeyedList.lastOf_cons, KeyedList.lastOf_cons, Framed.tag_beginField,
    Framed.tag_lengthField]
  rw [← added]
  rfl

theorem stored_of_few (tmp : Vector UInt8 6)
    (few : ((fields.map Prod.fst).filter (· ≠ .beginString)).dedup.length ≤ 62) :
    ∃ l, storeAll (framed tmp fields).fields = some l := by
  rw [exists_storeAll, map_tag_framed]
  let others := ((fields.map Prod.fst).filter (· ≠ .beginString)).dedup
  have covered : (FieldTag.beginString :: .bodyLength :: fields.map Prod.fst).dedup ⊆
      .beginString :: .bodyLength :: others := by
    intro tag htag
    simp only [others, List.mem_dedup, List.mem_cons, List.mem_filter, decide_eq_true_eq]
      at htag ⊢
    by_cases first : tag = .beginString
    · exact .inl first
    · rcases htag with h | h | h
      · exact .inl h
      · exact .inr (.inl h)
      · exact .inr (.inr ⟨h, first⟩)
  have count := (List.subperm_of_subset (List.nodup_dedup _) covered).length_le
  exact Nat.le_trans count (Nat.succ_le_succ (Nat.succ_le_succ few))

/-- What a message says that was made of `fields`. -/
structure Decoded (fields : List (FieldTag × FieldValue)) (parsed : FixMessage maxMessageSize) :
    Prop where
  values : ∀ f ∈ fields,
    parsed.getString FixMessage.root f.1 = .ok (lastValue f.1 fields)
  bodyLength : parsed.getInt FixMessage.root .bodyLength = .ok (some (bodyOf fields).length)
  beginString : (∀ f ∈ fields, f.1 ≠ .beginString) →
    parsed.getString FixMessage.root .beginString = .ok (some (ascii "FIX.5.0"))
  others : ∀ tag, tag ≠ .beginString → tag ≠ .bodyLength → (∀ f ∈ fields, f.1 ≠ tag) →
    parsed.arena.get FixMessage.root tag = .ok none

theorem lastOf_framed_of_mem {f : FieldTag × FieldValue} (hf : f ∈ fields) :
    (KeyedList.lastOf RawField.tag f.1 (framed tmp fields).fields).map RawField.value =
      lastValue f.1 fields := by
  rw [lastOf_framed, lastValue]
  cases found : KeyedList.lastOf Prod.fst f.1 fields with
  | some g => rfl
  | none =>
      unfold KeyedList.lastOf at found
      rw [List.find?_eq_none] at found
      exact absurd (found f (List.mem_reverse.mpr hf)) (by simp)

theorem lastOf_framed_of_notMem {tag : FieldTag} (absent : ∀ f ∈ fields, f.1 ≠ tag) :
    KeyedList.lastOf RawField.tag tag (framed tmp fields).fields =
      (if FieldTag.bodyLength = tag then some (framed tmp fields).lengthField else none).or
        (if FieldTag.beginString = tag then some (framed tmp fields).beginField else none) := by
  rw [lastOf_framed, KeyedList.lastOf_eq_none absent, Option.map_none, Option.none_or]

theorem lastSpot_bodyLength (h : Sendable fields) :
    (lastSpot .bodyLength (framed tmp fields).fields).map span = some (12, 6) := by
  have later : KeyedList.lastOf (fun p : Nat × RawField => p.2.tag) .bodyLength
      (spots (0 + (framed tmp fields).beginField.wire.length +
        (framed tmp fields).lengthField.wire.length) (framed tmp fields).body) = none := by
    apply KeyedList.lastOf_eq_none
    intro p hp
    have inside : p.2 ∈ (framed tmp fields).body := by
      rw [← map_spots (framed tmp fields).body]
      exact List.mem_map_of_mem hp
    obtain ⟨f, hf, same⟩ := List.mem_map.mp inside
    rw [← same, tag_rawField]
    exact (h.tags f hf).2
  have own : (0 + (framed tmp fields).beginField.wire.length,
      (framed tmp fields).lengthField).2.tag = .bodyLength := Framed.tag_lengthField _
  have text : (ascii "9").length = 1 := by decide
  have version : (framed tmp fields).beginString.length = 7 := by
    exact (by decide : (ascii "FIX.5.0").length = 7)
  have digits : (framed tmp fields).bodyLength.length = 6 := length_lengthDigits tmp _
  unfold lastSpot
  rw [Framed.fields, spots, spots, KeyedList.lastOf_cons, KeyedList.lastOf_cons, later,
    Option.none_or, if_pos own, Option.some_or, Option.map_some]
  simp only [span, RawField.token, Framed.length_beginField, version, Framed.lengthField, text,
    digits]

theorem getInt_bodyLength (h : Sendable fields) (short : (bodyOf fields).length < 10 ^ 6)
    (stored : storeAll (framed tmp fields).fields = some l)
    (near : Near (framed tmp fields).fields) (buf : MessageBuffer maxMessageSize) :
    FixMessage.getInt ⟨(framed tmp fields).cut, .single buf l⟩ FixMessage.root .bodyLength =
      .ok (some (bodyOf fields).length) := by
  have found := find_near stored near .bodyLength
  rw [lastSpot_bodyLength h, Option.map_eq_some_iff] at found
  obtain ⟨f, hf, same⟩ := found
  obtain ⟨offset, length⟩ := Prod.mk.inj same
  have digits : (framed tmp fields).bodyLength.length = 6 := length_lengthDigits tmp _
  have version : (framed tmp fields).beginString.length = 7 := by
    exact (by decide : (ascii "FIX.5.0").length = 7)
  have number : decimalFrom 0 (framed tmp fields).bodyLength = (bodyOf fields).length :=
    decimalFrom_lengthDigits short tmp
  have value := (Framed.announced_take (m := framed tmp fields) (lengthDigits_isDigit short tmp)
    (List.ne_nil_of_length_eq_add_one (length_lengthDigits tmp _)) (by rw [version]; decide)
    (by rw [number]; omega) (wireAll (framed tmp fields).body ++ (framed tmp fields).checkText)).1
  have whole : (framed tmp fields).bodyLength.take (6 % 2 ^ 16) =
      (framed tmp fields).bodyLength := by
    rw [Nat.mod_eq_of_lt (by decide), ← digits, List.take_length]
  rw [digits, version, whole, number] at value
  have get : (Heap.single buf l).get FixMessage.root .bodyLength = .ok (some f) := by
    rw [← hf]
    rfl
  simp only [FixMessage.getInt, Arena.getInt, get, bind, Except.bind, offset, length]
  change some <$> announced (framed tmp fields).cut 12 6 = _
  rw [Framed.cut, value]
  rfl

theorem decoded_of_stored (h : Sendable fields) (short : (bodyOf fields).length < 10 ^ 6)
    (stored : storeAll (framed tmp fields).fields = some l)
    (near : Near (framed tmp fields).fields) (buf : MessageBuffer maxMessageSize) :
    Decoded fields (⟨(framed tmp fields).cut, .single buf l⟩ : FixMessage maxMessageSize) := by
  have read := fun tag =>
    getString_stored stored near buf (framed tmp fields).checkText tag
  rw [← cut_eq_wireAll] at read
  refine ⟨?_, getInt_bodyLength h short stored near buf, ?_, ?_⟩
  · intro f hf
    rw [read, lastOf_framed_of_mem hf]
  · intro absent
    rw [read, lastOf_framed_of_notMem absent, if_neg (by decide), if_pos rfl]
    rfl
  · intro tag first second absent
    have nothing := find_near stored near tag
    have last := lastSpot_snd tag (framed tmp fields).fields
    rw [lastOf_framed_of_notMem absent, if_neg (Ne.symm second), if_neg (Ne.symm first),
      Option.none_or, Option.map_eq_none_iff] at last
    rw [last, Option.map_none, Option.map_eq_none_iff] at nothing
    change Except.ok (l.find tag) = _
    rw [nothing]

variable {b b' : Builder} {bytes : List UInt8}

/-- Messages of at most 65535 bytes decode to what was encoded just when the builder
finishes them, and it does so when the trailer fits it twice. -/
theorem decode_encode_iff (h : Sendable fields)
    (few : ((fields.map Prod.fst).filter (· ≠ .beginString)).dedup.length ≤ 62)
    (fits : encodedSize fields ≤ maxMessageSize) (small : maxMessageSize ≤ 65535)
    (tmp : Vector UInt8 6) (b : Builder) (msg : FixMessage maxMessageSize) :
    (∃ bytes b' parsed, (encode tmp fields).run b = .ok bytes b' ∧
        FixMessage.parse bytes msg GroupDefs.empty = .ok (parsed, []) ∧ Decoded fields parsed) ↔
      encodedSize fields + 7 ≤ b.maxMessageSize := by
  constructor
  · rintro ⟨bytes, b', parsed, made, -, -⟩
    exact (encode_inv made).1
  · intro room
    obtain ⟨b', made⟩ := encode_ok tmp room
    have size := length_framed tmp fields
    have short : (bodyOf fields).length < 10 ^ 6 := by
      have total : encodedSize fields = 19 + (bodyOf fields).length + 7 := rfl
      omega
    have unended : (framed tmp fields).Unended maxMessageSize GroupDefs.empty :=
      framed_unended h tmp short (size ▸ fits)
    obtain ⟨l, stored⟩ := stored_of_few tmp few
    obtain ⟨buf, parse⟩ := unended.parse_cut msg stored
    have near : Near (framed tmp fields).fields := by
      apply near_of_length
      have total := congrArg List.length (cut_eq_wireAll (framed tmp fields))
      rw [size, List.length_append] at total
      have part : (wireAll (framed tmp fields).fields).length ≤ encodedSize fields :=
        total ▸ Nat.le_add_right _ _
      exact Nat.lt_succ_of_le (Nat.le_trans part (Nat.le_trans fits small))
    exact ⟨_, b', _, made, parse, decoded_of_stored h short stored near buf⟩

def oneSent : List (FieldTag × FieldValue) := [(.clOrdID, .text (ascii "A"))]

theorem oneSent_sendable : Sendable oneSent where
  tags := by decide
  values := by decide

theorem decode_encode_iff_one_field :
    ∃ bytes b' parsed, (encode (.replicate 6 0) oneSent).run (new 64) = .ok bytes b' ∧
      FixMessage.parse bytes (emptyMessage admits_600) GroupDefs.empty = .ok (parsed, []) ∧
        Decoded oneSent parsed :=
  (decode_encode_iff oneSent_sendable (by decide) (by decide) (by decide) (.replicate 6 0)
    (new 64) (emptyMessage admits_600)).mpr (by decide)

/-- A builder with room for just these 31 bytes does not finish the message. -/
theorem encode_refuses_exact_fit :
    Sendable oneSent ∧ encodedSize oneSent ≤ (new 31).maxMessageSize ∧
      ¬ ∃ bytes b' parsed, (encode (.replicate 6 0) oneSent).run (new 31) = .ok bytes b' ∧
        FixMessage.parse bytes (emptyMessage admits_600) GroupDefs.empty = .ok (parsed, []) ∧
          Decoded oneSent parsed := by
  refine ⟨oneSent_sendable, by decide, ?_⟩
  rintro ⟨bytes, b', parsed, made, -, -⟩
  exact absurd (encode_inv made).1 (by decide)

end FastLittleMarket.Fix
