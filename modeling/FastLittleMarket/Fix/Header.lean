import FastLittleMarket.Fix.Decode

/-!
The standard header in front of a parse: BeginString and BodyLength take two rounds,
and the bulk read behind BodyLength decides how much of the rest is in the buffer
when the body is scanned.
-/

namespace FastLittleMarket.Fix

open Cursor

variable {maxMessageSize : Nat} {msg : FixMessage maxMessageSize} {defs : GroupDefs}
  {buf : MessageBuffer maxMessageSize}

/-- A parse starts on an empty field map, with the rest of the arena free. -/
theorem reset_single (msg : FixMessage maxMessageSize) :
    ∃ buf, msg.reset = .ok ⟨[], Heap.single buf KeyedList.empty⟩ ∧
      buf.used = sizeofFieldMap + maxMessageSize := by
  have admits := msg.arena.buf.admits
  have room := admits.room
  have small := admits.request
  have empty := msg.arena.buf.used_reset
  have fits : msg.arena.buf.reset.used + sizeofFieldMap ≤ 4 * maxMessageSize := by
    rw [empty, Nat.zero_add]
    exact Nat.le_trans (Nat.le_add_right _ _) room
  obtain ⟨mapped, hmap, used⟩ := MessageBuffer.exists_allocate sizeofFieldMap_le fits
  rw [empty, Nat.zero_add] at used
  have fits' : mapped.used + maxMessageSize ≤ 4 * maxMessageSize := by rwa [used]
  obtain ⟨buf, hbuf, used'⟩ := MessageBuffer.exists_allocate small fits'
  refine ⟨buf, ?_, by rw [used', used]⟩
  unfold FixMessage.reset FixMessage.carve
  simp only [hmap, hbuf]
  rfl

/-- A message without fields, in a block low in memory. -/
def emptyMessage (admits : Admits maxMessageSize) : FixMessage maxMessageSize :=
  ⟨[], .single (.new admits 4096 (by decide)) KeyedList.empty⟩

theorem admits_600 : Admits 600 := ⟨by decide, by decide⟩

/-- The state in which the parse loop starts on `input`. -/
def ParseState.start (buf : MessageBuffer maxMessageSize) (input : List UInt8) :
    ParseState maxMessageSize :=
  ⟨window [] input 0, .single buf KeyedList.empty, some FixMessage.root, [], none⟩

theorem parse_of_reset (reset : msg.reset = .ok ⟨[], .single buf KeyedList.empty⟩)
    (input : List UInt8) :
    FixMessage.parse input msg defs =
      (do
        let st ← Loop.run .unfinishedLoop (parseField defs) (input.length + 1)
          (ParseState.start buf input)
        pure (⟨st.cursor.bytes, st.arena⟩, st.cursor.input)) := by
  unfold FixMessage.parse
  rw [reset]
  rfl

variable {input : List UInt8} {k : Nat} {st st' : ParseState maxMessageSize}

theorem parse_exit (reset : msg.reset = .ok ⟨[], .single buf KeyedList.empty⟩)
    (run : Loop.Reaches (parseField defs) k (.start buf input) st)
    (leaves : parseField defs st = .ok (.exit st')) (budget : k ≤ input.length) :
    FixMessage.parse input msg defs = .ok (⟨st'.cursor.bytes, st'.arena⟩, st'.cursor.input) := by
  rw [parse_of_reset reset, run.exit leaves (Nat.lt_succ_of_le budget)]
  rfl

theorem parse_fail {e : ParseFault} (reset : msg.reset = .ok ⟨[], .single buf KeyedList.empty⟩)
    (run : Loop.Reaches (parseField defs) k (.start buf input) st)
    (fails : parseField defs st = .error e) (budget : k ≤ input.length) :
    FixMessage.parse input msg defs = .error e := by
  rw [parse_of_reset reset, run.fail fails (Nat.lt_succ_of_le budget)]
  rfl

/-- The field list of a message that consists of `fs`, if it has room for them. -/
def storeAll (fs : List RawField) : Option FieldList :=
  KeyedList.putAll Field.takeOverMerge KeyedList.empty (places 0 fs)

theorem exists_storeAll {fs : List RawField} :
    (∃ l, storeAll fs = some l) ↔
      (fs.map RawField.tag).dedup.length ≤ fixMsgMaxFieldCount := by
  unfold storeAll
  rw [KeyedList.exists_putAll_iff, map_tag_places]

theorem length_le_wireAll (fs : List RawField) : fs.length ≤ (wireAll fs).length := by
  induction fs with
  | nil => exact Nat.le_refl _
  | cons f fs ih =>
      rw [wireAll_cons, List.length_append, f.length_wire, List.length_cons]
      omega

/-- The values of BeginString and BodyLength, the fields between them and CheckSum,
and the value of CheckSum. -/
structure Framed where
  beginString : List UInt8
  bodyLength : List UInt8
  body : List RawField
  checkSum : List UInt8

namespace Framed

def beginField (m : Framed) : RawField := ⟨ascii "8", m.beginString⟩

def lengthField (m : Framed) : RawField := ⟨ascii "9", m.bodyLength⟩

def checkField (m : Framed) : RawField := ⟨ascii "10", m.checkSum⟩

/-- The fields in front of the checksum. -/
def fields (m : Framed) : List RawField := m.beginField :: m.lengthField :: m.body

def bodySize (m : Framed) : Nat := (wireAll m.body).length

/-- Everything in front of the delimiter of BodyLength. -/
def lead (m : Framed) : List UInt8 :=
  m.beginField.wire ++ (m.lengthField.text ++ equals :: m.lengthField.value)

theorem tag_beginField (m : Framed) : m.beginField.tag = .beginString := by
  have known : stoft (ascii "8") = some .beginString := stoft_ftof .beginString
  simp [RawField.tag, beginField, known]

theorem tag_lengthField (m : Framed) : m.lengthField.tag = .bodyLength := by
  have known : stoft (ascii "9") = some .bodyLength := stoft_ftof .bodyLength
  simp [RawField.tag, lengthField, known]

theorem tag_checkField (m : Framed) : m.checkField.tag = .checkSum := by
  have known : stoft (ascii "10") = some .checkSum := stoft_ftof .checkSum
  simp [RawField.tag, checkField, known]

theorem length_beginField (m : Framed) :
    m.beginField.wire.length = m.beginString.length + 3 := by
  have text : (ascii "8").length = 1 := by decide
  rw [RawField.length_wire]
  simp only [beginField, text]
  omega

theorem length_lengthField (m : Framed) :
    m.lengthField.wire.length = m.bodyLength.length + 3 := by
  have text : (ascii "9").length = 1 := by decide
  rw [RawField.length_wire]
  simp only [lengthField, text]
  omega

theorem length_checkField (m : Framed) : m.checkField.wire.length = m.checkSum.length + 4 := by
  have text : (ascii "10").length = 2 := by decide
  rw [RawField.length_wire]
  simp only [checkField, text]
  omega

theorem length_lead (m : Framed) :
    m.lead.length = m.beginString.length + 5 + m.bodyLength.length := by
  have text : (ascii "9").length = 1 := by decide
  rw [lead, List.length_append, length_beginField]
  simp only [List.length_append, List.length_cons, lengthField, text]
  omega

theorem lead_append (m : Framed) (y : List UInt8) :
    m.lead ++ soh :: y = m.beginField.wire ++ (m.lengthField.wire ++ y) := by
  simp [lead, RawField.wire]

/-- The header scans, and fits the message. -/
structure Headed (maxMessageSize : Nat) (m : Framed) : Prop where
  beginString : soh ∉ m.beginString
  bodyLength : soh ∉ m.bodyLength
  room : m.lead.length < maxMessageSize

variable {m : Framed} {l : FieldList}

namespace Headed

theorem beginField (h : m.Headed maxMessageSize) : m.beginField.Delimited where
  text := show equals ∉ ascii "8" by decide
  value := h.beginString

theorem lengthField (h : m.Headed maxMessageSize) : m.lengthField.Delimited where
  text := show equals ∉ ascii "9" by decide
  value := h.bodyLength

end Headed

/-- The two header fields are stored, and the bulk read starts behind them. -/
theorem header_round (h : m.Headed maxMessageSize) (defs : GroupDefs)
    (buf : MessageBuffer maxMessageSize)
    (put : storeAll [m.beginField, m.lengthField] = some l) (y : List UInt8) :
    ∃ st, Loop.Reaches (parseField defs) 1 (.start buf (m.lead ++ soh :: y)) st ∧
      parseField defs st =
        match readBody (.single buf l) FixMessage.root (window m.lead (soh :: y) 1) with
        | .error e => .error e
        | .ok (true, c) =>
            .ok (.next ⟨c.advance, .single buf l, some FixMessage.root, [], none⟩)
        | .ok (false, c) => .ok (.exit ⟨c, .single buf l, some FixMessage.root, [], none⟩) := by
  have lead := m.length_lead
  have first := m.length_beginField
  have second := m.length_lengthField
  have bound := h.room
  simp only [storeAll, places, KeyedList.putAll, Nat.zero_add] at put
  split at put
  · cases put
  · rename_i l₁ put₁
    split at put
    · cases put
    · rename_i l₂ put₂
      obtain rfl := Option.some.inj put
      have room : ([] : List UInt8).length + m.beginField.wire.length ≤ maxMessageSize := by
        rw [List.length_nil]
        omega
      have notLast : m.beginField.tag ≠ .checkSum := by
        rw [tag_beginField]
        decide
      have notLength : m.beginField.tag ≠ .bodyLength := by
        rw [tag_beginField]
        decide
      have round := parseField_field defs h.beginField notLast notLength
        (m.lengthField.wire ++ y) 0 room [] none (set_single (b := buf) put₁)
      have quiet : (if m.beginField.tag = .msgType then defs.defs m.beginField.value else none) =
          none := by
        rw [tag_beginField, if_neg (by decide)]
      rw [quiet, groupStep_quiet (by rfl), ← lead_append, List.nil_append, Nat.zero_sub] at round
      refine ⟨_, .one round, ?_⟩
      have room' : m.beginField.wire.length + m.lengthField.wire.length ≤ maxMessageSize := by
        omega
      rw [parseField_bodyLength h.lengthField (tag_lengthField m) room'
        (set_single (b := buf) put₂), Nat.zero_sub]
      rfl

/-- What the bulk read takes the announced length to be: the digits are in the buffer. -/
theorem getInt_header (put : storeAll [m.beginField, m.lengthField] = some l)
    (buf : MessageBuffer maxMessageSize) (y : List UInt8) :
    (Heap.single buf l).getInt (m.lead ++ [soh]) FixMessage.root .bodyLength =
      some <$> announced (m.lead ++ soh :: y) (m.beginString.length + 5) m.bodyLength.length := by
  simp only [storeAll, places, KeyedList.putAll, Nat.zero_add] at put
  split at put
  · cases put
  · split at put
    · cases put
    · rename_i l₁ put₁ _ l₂ put₂
      obtain rfl := Option.some.inj put
      have text : (ascii "9").length = 1 := by decide
      have place : (m.lengthField.token m.beginField.wire.length).offset =
          m.beginString.length + 5 := by
        simp only [RawField.token, length_beginField, lengthField, text]
      rw [tag_lengthField, place] at put₂
      have cut : m.lengthField.value = m.bodyLength := rfl
      rw [getInt_single put₂, cut]
      -- the cut place lies in front of the delimiter
      have same : announced (m.lead ++ [soh]) (m.beginString.length + 5) m.bodyLength.length =
          announced (m.lead ++ soh :: y) (m.beginString.length + 5) m.bodyLength.length := by
        have size : (m.lead ++ [soh]).length = m.lead.length + 1 := by simp
        have lead := m.length_lead
        have low := Nat.mod_le (m.beginString.length + 5) (2 ^ 16)
        have high := Nat.mod_le m.bodyLength.length (2 ^ 16)
        have whole : m.lead ++ soh :: y = (m.lead ++ [soh]) ++ y := by simp
        rw [whole]
        refine parseInt_congr fun i hi hlt => (byteAt_append_left ?_).symm
        rw [size]
        omega
      rw [same]

/-- Of a BodyLength that starts within 16 bits, a leading part of the numeral is read. -/
theorem announced_take (digits : ∀ c ∈ m.bodyLength, IsDigit c) (numeral : m.bodyLength ≠ [])
    (near : m.beginString.length ≤ 65530) (small : decimalFrom 0 m.bodyLength < 2 ^ 31)
    (y : List UInt8) :
    announced (m.lead ++ soh :: y) (m.beginString.length + 5) m.bodyLength.length =
        .ok (decimalFrom 0 (m.bodyLength.take (m.bodyLength.length % 2 ^ 16)) : Int) ∧
      decimalFrom 0 (m.bodyLength.take (m.bodyLength.length % 2 ^ 16)) ≤
        decimalFrom 0 m.bodyLength := by
  let pre := m.beginField.wire ++ (m.lengthField.text ++ [equals])
  let read := m.bodyLength.take (m.bodyLength.length % 2 ^ 16)
  let rest := m.bodyLength.drop (m.bodyLength.length % 2 ^ 16)
  have parts : read ++ rest = m.bodyLength := List.take_append_drop _ _
  have whole : m.lead ++ soh :: y = pre ++ (read ++ (rest ++ soh :: y)) := by
    rw [← List.append_assoc read, parts]
    simp [pre, lead, lengthField]
  have place : pre.length = m.beginString.length + 5 := by
    have text : (ascii "9").length = 1 := by decide
    rw [List.length_append, length_beginField]
    simp only [lengthField, List.length_append, text, List.length_singleton]
  have readSize : read.length = m.bodyLength.length % 2 ^ 16 := by
    rw [List.length_take]
    exact Nat.min_eq_left (Nat.mod_le _ _)
  have le : decimalFrom 0 read ≤ decimalFrom 0 m.bodyLength := by
    rw [← parts, decimalFrom_append]
    exact le_decimalFrom _ _
  have unsigned : byteAt (pre ++ (read ++ (rest ++ soh :: y))) pre.length ≠ 45 := by
    rw [← List.append_assoc read, parts]
    obtain ⟨d, ds, split⟩ := List.exists_cons_of_ne_nil numeral
    rw [split, List.cons_append, byteAt_append_cons]
    exact (digits d (by simp [split])).ne_minus
  have value := parseInt_digits (fun c hc => digits c (List.mem_of_mem_take hc))
    (Nat.lt_of_le_of_lt le small) pre (rest ++ soh :: y) unsigned
  rw [← whole, place, readSize] at value
  refine ⟨?_, le⟩
  unfold announced
  rwa [Nat.mod_eq_of_lt (by omega)]

theorem parse_bulk_error (h : m.Headed maxMessageSize)
    (reset : msg.reset = .ok ⟨[], .single buf KeyedList.empty⟩)
    (put : storeAll [m.beginField, m.lengthField] = some l) (y : List UInt8) {e : ParseFault}
    (read : readBody (.single buf l) FixMessage.root (window m.lead (soh :: y) 1) = .error e) :
    FixMessage.parse (m.lead ++ soh :: y) msg defs = .error e := by
  obtain ⟨st, run, round⟩ := header_round h defs buf put y
  rw [read] at round
  refine parse_fail reset run round ?_
  rw [List.length_append, List.length_cons]
  omega

theorem parse_bulk_short (h : m.Headed maxMessageSize)
    (reset : msg.reset = .ok ⟨[], .single buf KeyedList.empty⟩)
    (put : storeAll [m.beginField, m.lengthField] = some l) (y : List UInt8) {c : Cursor}
    (read : readBody (.single buf l) FixMessage.root (window m.lead (soh :: y) 1) =
      .ok (false, c)) :
    FixMessage.parse (m.lead ++ soh :: y) msg defs =
      .ok (⟨c.bytes, .single buf l⟩, c.input) := by
  obtain ⟨st, run, round⟩ := header_round h defs buf put y
  rw [read] at round
  refine parse_exit reset run round ?_
  rw [List.length_append, List.length_cons]
  omega

/-- The header behind it, a parse goes on over the body with `t` bytes read ahead. -/
theorem header_done (h : m.Headed maxMessageSize)
    (put : storeAll [m.beginField, m.lengthField] = some l) (y : List UInt8) {t : Nat}
    (read : readBody (.single buf l) FixMessage.root (window m.lead (soh :: y) 1) =
      .ok (true, window m.lead (soh :: y) (1 + t))) :
    Loop.Reaches (parseField defs) 2 (.start buf (m.lead ++ soh :: y))
      ⟨window (m.lead ++ [soh]) y t, .single buf l, some FixMessage.root, [], none⟩ := by
  obtain ⟨st, run, round⟩ := header_round h defs buf put y
  rw [read, Nat.add_comm 1 t] at round
  simp only [advance_window] at round
  exact run.trans (.one round)

theorem header_stored (m : Framed) : ∃ l, storeAll [m.beginField, m.lengthField] = some l :=
  exists_storeAll.mpr (Nat.le_trans (List.dedup_sublist _).length_le (by decide : 2 ≤ 64))

theorem putAll_fields
    (put : storeAll [m.beginField, m.lengthField] = some l) :
    storeAll m.fields =
      KeyedList.putAll Field.takeOverMerge l (places (m.lead ++ [soh]).length m.body) := by
  have start : 0 + m.beginField.wire.length + m.lengthField.wire.length =
      (m.lead ++ [soh]).length := by
    rw [length_beginField, length_lengthField, List.length_append, length_lead,
      List.length_singleton]
    omega
  have split : places 0 m.fields =
      places 0 [m.beginField, m.lengthField] ++ places (m.lead ++ [soh]).length m.body := by
    rw [← start]
    rfl
  unfold storeAll at put ⊢
  rw [split, KeyedList.putAll_append, put]
  rfl

/-- The body behind the header is stored field by field, if the field list has room. -/
theorem body_reaches (h : m.Headed maxMessageSize) (storable : ∀ f ∈ m.body, Storable defs f)
    (room : (m.lead ++ [soh]).length + m.bodySize ≤ maxMessageSize)
    (put : storeAll [m.beginField, m.lengthField] = some l) {l' : FieldList}
    (all : storeAll m.fields = some l')
    (z : List UInt8) {t : Nat}
    (read : readBody (.single buf l) FixMessage.root
      (window m.lead (soh :: (wireAll m.body ++ z)) 1) =
        .ok (true, window m.lead (soh :: (wireAll m.body ++ z)) (1 + t))) :
    ∃ groups, Loop.Reaches (parseField defs) (2 + m.body.length)
      (.start buf (m.lead ++ soh :: (wireAll m.body ++ z)))
      ⟨window (m.lead ++ [soh] ++ wireAll m.body) z (t - m.bodySize), .single buf l',
        some FixMessage.root, [], groups⟩ := by
  rw [putAll_fields put] at all
  obtain ⟨groups, -, run⟩ := reaches_fields storable buf z t (show Quiet none from rfl) room all
  exact ⟨groups, (header_done h put _ read).trans run⟩

theorem body_full (h : m.Headed maxMessageSize)
    (reset : msg.reset = .ok ⟨[], .single buf KeyedList.empty⟩)
    (storable : ∀ f ∈ m.body, Storable defs f)
    (room : (m.lead ++ [soh]).length + m.bodySize ≤ maxMessageSize)
    (put : storeAll [m.beginField, m.lengthField] = some l)
    (full : storeAll m.fields = none)
    (z : List UInt8) {t : Nat}
    (read : readBody (.single buf l) FixMessage.root
      (window m.lead (soh :: (wireAll m.body ++ z)) 1) =
        .ok (true, window m.lead (soh :: (wireAll m.body ++ z)) (1 + t))) :
    FixMessage.parse (m.lead ++ soh :: (wireAll m.body ++ z)) msg defs =
      .error .fieldListFull := by
  rw [putAll_fields put] at full
  obtain ⟨k, st, le, run, fails⟩ :=
    fails_full storable buf z t (show Quiet none from rfl) room full
  have rounds := length_le_wireAll m.body
  have lead := m.length_lead
  refine parse_fail reset ((header_done h put _ read).trans run) fails ?_
  simp only [List.length_append, List.length_cons]
  omega

end Framed

end FastLittleMarket.Fix
