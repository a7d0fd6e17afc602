import FastLittleMarket.Fix.RoundTrip

/-!
Messages one behind the other on a stream. The missing delimiter of a checksum makes
the parse of a message take the BeginString of the next one, so that only the last
message of a stream is read by itself.
-/

namespace FastLittleMarket.Fix

open Builder

/-- A message that a builder has finished and that fits the parser's message. -/
structure SentMessage (maxMessageSize : Nat) where
  fields : List (FieldTag × FieldValue)
  sendable : Sendable fields
  builder : Builder
  tmp : Vector UInt8 6
  bytes : List UInt8
  left : Builder
  made : (encode tmp fields).run builder = .ok bytes left
  fits : bytes.length ≤ maxMessageSize

variable {maxMessageSize : Nat}

namespace SentMessage

def framed (m : SentMessage maxMessageSize) : Framed := Fix.framed m.tmp m.fields

def Few (m : SentMessage maxMessageSize) : Prop :=
  (m.framed.fields.map RawField.tag).dedup.length ≤ fixMsgMaxFieldCount

/-- The parsed message is this one: its bytes, every field at its own place in them, and
the values read back there. -/
structure Yields (m : SentMessage maxMessageSize) (parsed : FixMessage maxMessageSize) :
    Prop where
  bytes : parsed.msgBytes = m.bytes
  places : ∀ tag, ∃ found, parsed.arena.get FixMessage.root tag = .ok found ∧
    found.map (fun f => (f.offset.toNat, f.length.toNat)) =
      (lastSpot tag m.framed.fields).map span
  values : ∀ tag, parsed.getString FixMessage.root tag =
    .ok ((KeyedList.lastOf RawField.tag tag m.framed.fields).map RawField.value)

theorem bytes_eq (m : SentMessage maxMessageSize) : m.bytes = m.framed.cut :=
  (encode_inv m.made).2

theorem size_body (m : SentMessage maxMessageSize) :
    (bodyOf m.fields).length ≤ (wireAll m.framed.fields).length := by
  have parts : wireAll m.framed.fields = m.framed.beginField.wire ++
      (m.framed.lengthField.wire ++ bodyOf m.fields) := rfl
  rw [parts, List.length_append, List.length_append]
  omega

theorem unended (m : SentMessage maxMessageSize) (near : Near m.framed.fields) :
    m.framed.Unended maxMessageSize GroupDefs.empty := by
  refine framed_unended m.sendable m.tmp ?_ ?_
  · exact Nat.lt_of_le_of_lt m.size_body (length_of_near near)
  · have fits := m.fits
    rwa [m.bytes_eq] at fits

theorem Yields.near {m : SentMessage maxMessageSize} {parsed : FixMessage maxMessageSize}
    (h : m.Yields parsed) : Near m.framed.fields := by
  choose found get same using h.places
  refine near_of_places (fun tag => (found tag).map fun f => (f.offset, f.length)) fun tag => ?_
  rw [Option.map_map]
  exact same tag

theorem yields_of_stored {m : SentMessage maxMessageSize} (near : Near m.framed.fields)
    {l : FieldList} (stored : storeAll m.framed.fields = some l)
    (buf : MessageBuffer maxMessageSize) : m.Yields ⟨m.framed.cut, .single buf l⟩ where
  bytes := m.bytes_eq.symm
  places tag := ⟨l.find tag, rfl, find_near stored near tag⟩
  values tag := by
    rw [cut_eq_wireAll]
    exact getString_stored stored near buf _ tag

theorem bytes_begin (m : SentMessage maxMessageSize) :
    ∃ rest, m.bytes = ascii "8=FIX.5.0" ++ soh :: rest := by
  have header : ascii "8=FIX.5.0" = ascii "8" ++ equals :: ascii "FIX.5.0" := by decide
  rw [m.bytes_eq, cut_eq_wireAll, header]
  refine ⟨m.framed.lengthField.wire ++ wireAll m.framed.body ++ m.framed.checkText, ?_⟩
  simp [Framed.fields, Framed.beginField, RawField.wire, framed, Fix.framed]

end SentMessage

variable {msg : FixMessage maxMessageSize} {m : SentMessage maxMessageSize}

theorem last_of_yields {rest : List (SentMessage maxMessageSize)}
    {parsed : FixMessage maxMessageSize} {input : List UInt8}
    (parse : FixMessage.parse (m.bytes ++ rest.flatMap SentMessage.bytes) msg GroupDefs.empty =
      .ok (parsed, input)) (yields : m.Yields parsed) :
    rest = [] ∧ m.Few ∧ Near m.framed.fields := by
  have near := yields.near
  have unended := m.unended near
  have few : m.Few := by
    by_contra many
    have full : storeAll m.framed.fields = none := by
      by_contra stored
      obtain ⟨l, stored⟩ := Option.ne_none_iff_exists'.mp stored
      exact many (exists_storeAll.mp ⟨l, stored⟩)
    rw [m.bytes_eq, unended.parse_cut_full msg full] at parse
    cases parse
  refine ⟨?_, few, near⟩
  cases rest with
  | nil => rfl
  | cons next rest =>
      obtain ⟨more, begins⟩ := next.bytes_begin
      rw [List.flatMap_cons, begins, m.bytes_eq, List.append_assoc, List.cons_append] at parse
      have longer := unended.parse_cut_append msg (by decide) _ parse
      exact absurd (yields.bytes.trans m.bytes_eq) longer

theorem alone_of_yields {ms : List (SentMessage maxMessageSize)}
    {parsed : List (FixMessage maxMessageSize)}
    (yields : List.Forall₂ SentMessage.Yields ms parsed)
    (parse : FixMessage.parseEach GroupDefs.empty ms.length (ms.flatMap SentMessage.bytes) msg =
      .ok (parsed, [])) :
    ms = [] ∨ ∃ m, ms = [m] ∧ m.Few ∧ Near m.framed.fields := by
  cases yields with
  | nil => exact .inl rfl
  | @cons m p ms ps first later =>
      rw [List.flatMap_cons, List.length_cons, FixMessage.parseEach] at parse
      obtain ⟨⟨p', input⟩, parsedFirst, parse⟩ := Loop.exists_of_bind parse
      obtain ⟨⟨later', input'⟩, -, parse⟩ := Loop.exists_of_bind parse
      cases parse
      obtain ⟨rfl, few, near⟩ := last_of_yields parsedFirst first
      exact .inr ⟨m, rfl, few, near⟩

/-- Messages on one stream are yielded one by one just when there is at most one, with at
most 64 tags and values that start and end within 16 bits. -/
theorem stream_round_trip_iff (ms : List (SentMessage maxMessageSize))
    (msg : FixMessage maxMessageSize) :
    (∃ parsed, FixMessage.parseEach GroupDefs.empty ms.length (ms.flatMap SentMessage.bytes) msg =
        .ok (parsed, []) ∧ List.Forall₂ SentMessage.Yields ms parsed) ↔
      ms = [] ∨ ∃ m, ms = [m] ∧ m.Few ∧ Near m.framed.fields := by
  constructor
  · rintro ⟨parsed, parse, yields⟩
    exact alone_of_yields yields parse
  · rintro (rfl | ⟨m, rfl, few, near⟩)
    · exact ⟨[], rfl, .nil⟩
    · obtain ⟨l, stored⟩ := exists_storeAll.mpr few
      obtain ⟨buf, parse⟩ := (m.unended near).parse_cut msg stored
      refine ⟨[⟨m.framed.cut, .single buf l⟩], ?_,
        .cons (SentMessage.yields_of_stored near stored buf) .nil⟩
      simp only [List.flatMap_cons, List.flatMap_nil, List.append_nil, m.bytes_eq,
        List.length_singleton, FixMessage.parseEach, parse, bind, Except.bind, pure, Except.pure]

def oneMessage : SentMessage 600 where
  fields := oneSent
  sendable := oneSent_sendable
  builder := new 64
  tmp := .replicate 6 0
  bytes := oneFieldMessage
  left := { oneField with message := oneFieldMessage }
  made := by rfl
  fits := by decide

/-- Of the same message twice, the first parse takes ten bytes of the second. -/
theorem second_message_loses_header :
    ¬ ∃ parsed, FixMessage.parseEach GroupDefs.empty 2 (oneFieldMessage ++ oneFieldMessage)
        (emptyMessage admits_600) = .ok (parsed, []) ∧
      List.Forall₂ SentMessage.Yields [oneMessage, oneMessage] parsed := by
  rintro ⟨parsed, parse, yields⟩
  rcases alone_of_yields yields parse with none_sent | ⟨m, one, -⟩
  · cases none_sent
  · cases one

end FastLittleMarket.Fix
