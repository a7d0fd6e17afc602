import FastLittleMarket.Fix.Header

/-!
Framing: where the parser takes a message to end. On a well-formed message the end
is decided by the number BodyLength is read as; that number is read through the
16-bit place of the field, so it is the announced one only while the place fits.
-/

namespace FastLittleMarket.Fix

open Cursor

section Numbers

theorem parseInt_range {bytes : List UInt8} {start stop : Nat} {v : Int}
    (h : parseInt bytes start stop = .ok v) : -2 ^ 31 ≤ v ∧ v < 2 ^ 31 := by
  by_cases le : start ≤ stop
  · obtain ⟨length, rfl⟩ := Nat.exists_eq_add_of_le le
    obtain ⟨reads, rfl⟩ := parseInt_ok_inv h
    exact reads.number
  · unfold parseInt parseSigned at h
    dsimp only at h
    rw [if_pos (by split <;> omega)] at h
    cases h

end Numbers

variable {maxMessageSize : Nat}

namespace Framed

variable {m : Framed} {defs : GroupDefs}

def wire (m : Framed) : List UInt8 := wireAll m.fields ++ m.checkField.wire

structure WellFormed (maxMessageSize : Nat) (defs : GroupDefs) (m : Framed) : Prop where
  beginString : soh ∉ m.beginString
  digits : ∀ c ∈ m.bodyLength, IsDigit c
  numeral : m.bodyLength ≠ []
  length : decimalFrom 0 m.bodyLength = m.bodySize
  body : ∀ f ∈ m.body, Storable defs f
  checkSum : m.checkSum.length = 3 ∧ ∀ c ∈ m.checkSum, IsDigit c
  fits : m.wire.length ≤ maxMessageSize
  few : (m.fields.map RawField.tag).dedup.length ≤ fixMsgMaxFieldCount

/-- The place of BodyLength, cut to 16 bits, holds a number that ends the bulk read
no later than the message. -/
def LengthRead (m : Framed) : Prop :=
  ∃ M, announced m.wire (m.beginString.length + 5) m.bodyLength.length = .ok M ∧
    M ≤ m.bodySize + 1

theorem wire_eq (m : Framed) :
    m.wire = m.lead ++ soh :: (wireAll m.body ++ m.checkField.wire) := by
  simp [wire, fields, lead, RawField.wire]

theorem length_wire (m : Framed) :
    m.wire.length = m.lead.length + 1 + m.bodySize + (m.checkSum.length + 4) := by
  rw [wire_eq]
  simp only [List.length_append, List.length_cons, length_checkField, bodySize]
  omega

namespace WellFormed

theorem size (h : m.WellFormed maxMessageSize defs) :
    m.lead.length + m.bodySize + 8 ≤ maxMessageSize := by
  have fits := h.fits
  rw [length_wire, h.checkSum.1] at fits
  omega

theorem headed (h : m.WellFormed maxMessageSize defs) : m.Headed maxMessageSize where
  beginString := h.beginString
  bodyLength := soh_notMem_of_digits h.digits
  room := by
    have size := h.size
    omega

theorem checkField (h : m.WellFormed maxMessageSize defs) : m.checkField.Delimited where
  text := show equals ∉ ascii "10" by decide
  value := soh_notMem_of_digits h.checkSum.2

theorem length_rest (h : m.WellFormed maxMessageSize defs) (s : List UInt8) :
    (wireAll m.body ++ (m.checkField.wire ++ s)).length = m.bodySize + s.length + 7 := by
  rw [List.length_append, List.length_append, length_checkField, h.checkSum.1, bodySize]
  omega

theorem stored (h : m.WellFormed maxMessageSize defs) : ∃ l, storeAll m.fields = some l :=
  exists_storeAll.mpr h.few

end WellFormed

theorem lengthRead_of_int {M : Int}
    (value : announced m.wire (m.beginString.length + 5) m.bodyLength.length = .ok M) :
    m.LengthRead ↔ M ≤ m.bodySize + 1 := by
  constructor
  · rintro ⟨M', value', le⟩
    rw [value] at value'
    obtain rfl := Except.ok.inj value'
    exact le
  · exact fun le => ⟨M, value, le⟩

theorem wire_append (m : Framed) (s : List UInt8) :
    m.wire ++ s = m.lead ++ soh :: (wireAll m.body ++ (m.checkField.wire ++ s)) := by
  rw [wire_eq]
  simp

variable {buf : MessageBuffer maxMessageSize} {msg : FixMessage maxMessageSize}
  {l₂ l : FieldList}

/-- A message whose bulk read is complete is parsed to its checksum; of what follows
it, the parse keeps what was read ahead. -/
theorem parse_checked (h : m.WellFormed maxMessageSize defs)
    (reset : msg.reset = .ok ⟨[], .single buf KeyedList.empty⟩)
    (put : storeAll [m.beginField, m.lengthField] = some l₂) (all : storeAll m.fields = some l)
    (s : List UInt8) {t : Nat}
    (read : readBody (.single buf l₂) FixMessage.root
      (window m.lead (soh :: (wireAll m.body ++ (m.checkField.wire ++ s))) 1) =
        .ok (true, window m.lead (soh :: (wireAll m.body ++ (m.checkField.wire ++ s))) (1 + t))) :
    FixMessage.parse (m.wire ++ s) msg defs =
      .ok (⟨m.wire ++ s.take (t - m.bodySize - 7), .single buf l⟩,
        s.drop (t - m.bodySize - 7)) := by
  have size := h.size
  have check : m.checkField.wire.length = 7 := by rw [length_checkField, h.checkSum.1]
  have start : (m.lead ++ [soh]).length = m.lead.length + 1 := by simp
  obtain ⟨groups, run⟩ := body_reaches h.headed h.body (by omega) put all
    (m.checkField.wire ++ s) read
  have last : (m.lead ++ [soh] ++ wireAll m.body).length + m.checkField.wire.length ≤
      maxMessageSize := by
    rw [List.length_append, start, check]
    exact Nat.le_trans (by rw [bodySize]; omega) size
  have budget : 2 + m.body.length ≤ (m.wire ++ s).length := by
    have rounds := length_le_wireAll m.body
    have lead := m.length_lead
    rw [List.length_append, length_wire, bodySize]
    omega
  rw [← wire_append] at run
  have whole : m.wire = m.lead ++ [soh] ++ wireAll m.body ++
      (m.checkField.text ++ equals :: m.checkField.value) ++ [soh] := by
    rw [wire_eq]
    simp [RawField.wire]
  rw [parse_exit reset run (parseField_checkSum h.checkField (tag_checkField m) last) budget,
    bytes_window, List.take_succ_cons, whole, check,
    List.append_assoc _ [soh] (List.take _ s)]
  rfl

/-- The bulk read takes the announced length to the letter. -/
theorem bulk_read (h : m.WellFormed maxMessageSize defs)
    (put : storeAll [m.beginField, m.lengthField] = some l₂) (buf : MessageBuffer maxMessageSize)
    (s : List UInt8) {M : Int}
    (value : announced m.wire (m.beginString.length + 5) m.bodyLength.length = .ok M)
    (high : M + 7 < 2 ^ 31) :
    readBody (.single buf l₂) FixMessage.root
        (window m.lead (soh :: (wireAll m.body ++ (m.checkField.wire ++ s))) 1) =
      if maxMessageSize < m.lead.length + min (1 + (M + 6).toNat) (m.bodySize + s.length + 8) then
        .error .bufferOverflow
      else .ok (decide ((M + 6).toNat ≤ m.bodySize + s.length + 7),
        window m.lead (soh :: (wireAll m.body ++ (m.checkField.wire ++ s)))
          (1 + (M + 6).toNat)) := by
  have bulk := getInt_header put buf (wireAll m.body ++ m.checkField.wire)
  rw [← wire_eq, value] at bulk
  have read := readBody_window (wireAll m.body ++ (m.checkField.wire ++ s)) bulk
    (parseInt_range value).1 high h.headed.room
  rwa [h.length_rest] at read

/-- Reading the announced number right is what keeps a parse to its message. -/
theorem parse_ok (h : m.WellFormed maxMessageSize defs) (msg : FixMessage maxMessageSize)
    (read : m.LengthRead) :
    ∃ buf l, storeAll m.fields = some l ∧
      ∀ s, FixMessage.parse (m.wire ++ s) msg defs = .ok (⟨m.wire, .single buf l⟩, s) := by
  obtain ⟨buf, reset, -⟩ := reset_single msg
  obtain ⟨l₂, put⟩ := m.header_stored
  obtain ⟨l, all⟩ := h.stored
  obtain ⟨M, value, le⟩ := read
  have size := h.size
  have int : 4 * maxMessageSize < 2 ^ 31 := msg.arena.buf.admits.int
  refine ⟨buf, l, all, fun s => ?_⟩
  have read := bulk_read h put buf s value (by omega)
  have room : ¬ maxMessageSize <
      m.lead.length + min (1 + (M + 6).toNat) (m.bodySize + s.length + 8) := by omega
  rw [if_neg room, decide_eq_true (by omega)] at read
  have nothing : (M + 6).toNat - m.bodySize - 7 = 0 := by omega
  rw [parse_checked h reset put all s read, nothing, List.take_zero, List.append_nil,
    List.drop_zero]

/-- Reading another number takes bytes of the next message, stops short or faults. -/
theorem lengthRead_of_parse (h : m.WellFormed maxMessageSize defs)
    (msg : FixMessage maxMessageSize) {msg' : FixMessage maxMessageSize}
    (exact : ∀ s, FixMessage.parse (m.wire ++ s) msg defs = .ok (msg', s)) : m.LengthRead := by
  obtain ⟨buf, reset, -⟩ := reset_single msg
  obtain ⟨l₂, put⟩ := m.header_stored
  obtain ⟨l, all⟩ := h.stored
  have parsed := exact [0]
  have bulk := getInt_header put buf (wireAll m.body ++ m.checkField.wire)
  rw [← wire_eq] at bulk
  have failed : ∀ e, readBody (.single buf l₂) FixMessage.root
      (window m.lead (soh :: (wireAll m.body ++ (m.checkField.wire ++ [0]))) 1) ≠ .error e := by
    intro e he
    rw [wire_append, parse_bulk_error h.headed reset put _ he] at parsed
    cases parsed
  have bytes : (window m.lead (soh :: (wireAll m.body ++ (m.checkField.wire ++ [0]))) 1).bytes =
      m.lead ++ [soh] := rfl
  cases value : announced m.wire (m.beginString.length + 5) m.bodyLength.length with
  | error e =>
      rw [value] at bulk
      refine absurd ?_ (failed e)
      unfold readBody
      rw [bytes, bulk]
      rfl
  | ok M =>
      rw [lengthRead_of_int value]
      by_contra excess
      rw [value] at bulk
      by_cases high : M + 7 < 2 ^ 31
      · have read := bulk_read h put buf [0] value high
        split at read
        · exact failed _ read
        · by_cases enough : (M + 6).toNat ≤ m.bodySize + [(0 : UInt8)].length + 7
          · rw [decide_eq_true enough] at read
            have nothing : [(0 : UInt8)].drop ((M + 6).toNat - m.bodySize - 7) = [] := by
              apply List.drop_eq_nil_of_le
              rw [List.length_singleton]
              omega
            rw [parse_checked h reset put all _ read, nothing] at parsed
            cases parsed
          · rw [decide_eq_false enough] at read
            have input : (window m.lead (soh :: (wireAll m.body ++ (m.checkField.wire ++ [0])))
                (1 + (M + 6).toNat)).input = [] := by
              apply List.drop_eq_nil_of_le
              rw [List.length_cons, h.length_rest]
              omega
            rw [wire_append, parse_bulk_short h.headed reset put _ read, input] at parsed
            cases parsed
      · have out_of_range : inInt (M + 7) = .error .intOverflow := by
          exact inInt_overflow fun both => high both.2
        refine failed .intOverflow ?_
        unfold readBody
        simp only [bytes, bulk]
        change (do let withTrailer ← inInt (M + 7); _) = _
        rw [out_of_range]
        rfl

theorem lengthRead_of_small (h : m.WellFormed maxMessageSize defs)
    (size : maxMessageSize < 2 ^ 31) (small : m.beginString.length ≤ 65530) : m.LengthRead := by
  have bound : decimalFrom 0 m.bodyLength < 2 ^ 31 := by
    have fits := h.size
    rw [h.length]
    omega
  obtain ⟨value, le⟩ := announced_take h.digits h.numeral small bound
    (wireAll m.body ++ m.checkField.wire)
  rw [h.length] at le
  rw [← wire_eq] at value
  exact ⟨_, value, by omega⟩

/-- A message after parsing `m`: its bytes, and its fields at their places. -/
def Holds (m : Framed) (parsed : FixMessage maxMessageSize) : Prop :=
  parsed.msgBytes = m.wire ∧
    ∃ buf l, storeAll m.fields = some l ∧
      parsed.arena = .single buf l

theorem parseEach_holds {ms : List Framed} (h : ∀ m ∈ ms, m.WellFormed maxMessageSize defs)
    (read : ∀ m ∈ ms, m.LengthRead) (msg : FixMessage maxMessageSize) (s : List UInt8) :
    ∃ parsed, FixMessage.parseEach defs ms.length (ms.flatMap wire ++ s) msg =
        .ok (parsed, s) ∧ List.Forall₂ Holds ms parsed := by
  induction ms generalizing msg with
  | nil => exact ⟨[], rfl, .nil⟩
  | cons m ms ih =>
      obtain ⟨buf, l, put, parse⟩ := parse_ok (h m (by simp)) msg (read m (by simp))
      obtain ⟨parsed, later, holds⟩ := ih (fun x hx => h x (by simp [hx]))
        (fun x hx => read x (by simp [hx])) ⟨m.wire, .single buf l⟩
      refine ⟨⟨m.wire, .single buf l⟩ :: parsed, ?_, .cons ⟨rfl, buf, l, put, rfl⟩ holds⟩
      rw [List.flatMap_cons, List.append_assoc]
      simp only [List.length_cons, FixMessage.parseEach, parse, later, bind, Except.bind, pure,
        Except.pure]

/-- A parse keeps to the bytes of a well-formed message, whatever follows, just when
the number at the cut place of BodyLength lets it; messages of which that is true
are parsed one by one from any concatenation. -/
theorem parse_frames_iff {ms : List Framed} (h : ∀ m ∈ ms, m.WellFormed maxMessageSize defs)
    (msg : FixMessage maxMessageSize) :
    (∀ m ∈ ms,
      ((∃ parsed, m.Holds parsed ∧
        ∀ s, FixMessage.parse (m.wire ++ s) msg defs = .ok (parsed, s)) ↔ m.LengthRead) ∧
      (m.beginString.length ≤ 65530 → m.LengthRead)) ∧
    ((∀ m ∈ ms, m.LengthRead) → ∀ s, ∃ parsed,
      FixMessage.parseEach defs ms.length (ms.flatMap wire ++ s) msg = .ok (parsed, s) ∧
        List.Forall₂ Holds ms parsed) := by
  have int : 4 * maxMessageSize < 2 ^ 31 := msg.arena.buf.admits.int
  refine ⟨fun m hm => ⟨⟨?_, ?_⟩, ?_⟩, fun read s => parseEach_holds h read msg s⟩
  · rintro ⟨parsed, -, exact⟩
    exact lengthRead_of_parse (h m hm) msg exact
  · intro read
    obtain ⟨buf, l, put, parse⟩ := parse_ok (h m hm) msg read
    exact ⟨_, ⟨rfl, buf, l, put, rfl⟩, parse⟩
  · exact fun small => lengthRead_of_small (h m hm) (by omega) small

/-- A message of one field of five bytes. -/
def short : Framed := ⟨ascii "FIX.5.0", ascii "5", [⟨ascii "35", ascii "D"⟩], ascii "000"⟩

theorem short_wellFormed : short.WellFormed 600 GroupDefs.empty where
  beginString := by decide
  digits := isDigit_of_all (by decide)
  numeral := by decide
  length := by decide
  body := by
    intro f hf
    obtain rfl := List.mem_singleton.mp hf
    exact ⟨⟨by decide, by decide⟩, by decide +kernel, by decide +kernel, fun _ => rfl⟩
  checkSum := ⟨by decide, isDigit_of_all (by decide)⟩
  fits := by decide
  few := by decide +kernel

theorem parse_frames_iff_short :
    ∃ parsed, FixMessage.parseEach GroupDefs.empty 2 (short.wire ++ (short.wire ++ ascii "8="))
        (emptyMessage admits_600) = .ok (parsed, ascii "8=") ∧
      List.Forall₂ Holds [short, short] parsed := by
  have h : ∀ m ∈ [short, short], m.WellFormed 600 GroupDefs.empty := by
    intro m hm
    rcases List.mem_pair.mp hm with rfl | rfl <;> exact short_wellFormed
  obtain ⟨single, each⟩ := parse_frames_iff h (emptyMessage admits_600)
  have read : ∀ m ∈ [short, short], m.LengthRead := by
    intro m hm
    refine (single m hm).2 ?_
    rcases List.mem_pair.mp hm with rfl | rfl <;> decide
  exact each read _

/-- A BeginString so long that BodyLength stands at position 2^16. -/
def longBegin : Framed := ⟨List.replicate 65531 65, ascii "0", [], ascii "000"⟩

theorem admits_70000 : Admits 70000 := ⟨by decide, by decide⟩

theorem length_longBegin : longBegin.beginString.length = 65531 := List.length_replicate

theorem longBegin_wellFormed : longBegin.WellFormed 70000 GroupDefs.empty where
  beginString h := absurd (List.eq_of_mem_replicate h) (by decide)
  digits := isDigit_of_all (by decide)
  numeral := by decide
  length := by decide
  body := fun f hf => absurd hf (List.not_mem_nil)
  checkSum := ⟨by decide, isDigit_of_all (by decide)⟩
  fits := by
    have digits : longBegin.bodyLength.length = 1 := by decide
    have sum : longBegin.checkSum.length = 3 := by decide
    have size : (wireAll longBegin.body).length = 0 := by decide
    have body : longBegin.bodySize = 0 := size
    rw [length_wire, length_lead, length_longBegin, digits, sum, body]
    omega
  few := by decide +kernel

/-- The place of that BodyLength is cut to the start of the message, where an 8
stands. -/
theorem longBegin_read : announced longBegin.wire (longBegin.beginString.length + 5)
    longBegin.bodyLength.length = .ok 8 := by
  have eight : ∀ c ∈ ([56] : List UInt8), IsDigit c := isDigit_of_all (by decide)
  have digit : ∀ rest, parseInt (56 :: rest) 0 1 = .ok 8 :=
    fun rest => parseInt_decimal eight (by decide) (by decide) [] rest
  have head : ∀ m : Framed, ∃ rest, m.wire = 56 :: rest := fun m => ⟨_, rfl⟩
  have one : longBegin.bodyLength.length = 1 := rfl
  obtain ⟨rest, starts⟩ := head longBegin
  rw [length_longBegin, one, starts]
  exact digit rest

theorem parse_misses_long_begin :
    longBegin.WellFormed 70000 GroupDefs.empty ∧
      ¬ ∃ parsed, ∀ s, FixMessage.parse (longBegin.wire ++ s) (emptyMessage admits_70000)
        GroupDefs.empty = .ok (parsed, s) := by
  refine ⟨longBegin_wellFormed, ?_⟩
  rintro ⟨parsed, exact⟩
  have read := lengthRead_of_parse longBegin_wellFormed _ exact
  rw [lengthRead_of_int longBegin_read] at read
  exact absurd read (by decide)

end Framed

end FastLittleMarket.Fix
