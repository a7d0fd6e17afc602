import FastLittleMarket.Fix.Append
import FastLittleMarket.Fix.RoundTrip
import FastLittleMarket.Fix.TreeMessage

/-!
Messages with repeating groups, from one end to the other. A builder makes such a message
out of its fields, an instance of a group being filled in a builder of its own or not; what
it finishes, the parser takes for the tree that was put in.
-/

namespace FastLittleMarket.Fix

open Cursor Builder

variable {maxMessageSize : Nat}

/-- The fields in front of MsgType, its value, and the content behind it. -/
structure Draft where
  middle : List RawField
  msgType : List UInt8
  tree : Node

namespace Draft

def body (d : Draft) : List RawField := d.middle ++ ⟨ascii "35", d.msgType⟩ :: d.tree.flat

/-- The message that the builder makes of the draft, short of the last digit of its
checksum. -/
def assembled (d : Draft) (tmp : Vector UInt8 6) (fields : List (FieldTag × FieldValue)) :
    TreeMessage where
  front := [(framed tmp fields).beginField]
  bodyLength := some (lengthDigits tmp (bodyOf fields).length)
  middle := d.middle
  msgType := d.msgType
  tree := d.tree
  checkSum := (framed tmp fields).checkSum.take 3

/-- The builder can send `fields`, and the parser has room for the tree they stand for. -/
structure Sent (maxMessageSize : Nat) (defs : GroupDefs) (gds : List GroupDef)
    (tmp : Vector UInt8 6) (d : Draft) (fields : List (FieldTag × FieldValue)) : Prop where
  content : fields.map rawField = d.body
  sendable : Sendable fields
  short : (bodyOf fields).length < 10 ^ 6
  middle : ∀ f ∈ d.middle, f.tag ≠ .msgType
  groups : defs.defs d.msgType = some gds
  tree : d.tree.Valid gds
  fits : encodedSize fields ≤ maxMessageSize
  few : ((d.assembled tmp fields).own.map RawField.tag).dedup.length ≤ fixMsgMaxFieldCount
  room : Arena.RoomFor maxMessageSize (1 + d.tree.size)
  near : Near (d.assembled tmp fields).fields

variable {d : Draft} {tmp : Vector UInt8 6} {fields : List (FieldTag × FieldValue)}
  {defs : GroupDefs} {gds : List GroupDef}

theorem typeField_assembled :
    (d.assembled tmp fields).typeField = ⟨ascii "35", d.msgType⟩ := rfl

theorem lead_assembled : (d.assembled tmp fields).lead =
    [(framed tmp fields).beginField, (framed tmp fields).lengthField] ++ d.middle := rfl

theorem fields_assembled (content : fields.map rawField = d.body) :
    (d.assembled tmp fields).fields = (framed tmp fields).fields := by
  have body : (framed tmp fields).body = d.body := content
  rw [Framed.fields, body, TreeMessage.fields, lead_assembled]
  rfl

theorem bodySize_assembled (content : fields.map rawField = d.body) :
    (d.assembled tmp fields).bodySize = (bodyOf fields).length := by
  rw [bodyOf, content]
  rfl

theorem cut_assembled (tmp : Vector UInt8 6) (content : fields.map rawField = d.body) :
    (framed tmp fields).cut =
      wireAll (d.assembled tmp fields).fields ++ (framed tmp fields).checkText := by
  rw [cut_eq_wireAll, fields_assembled content]

namespace Sent

theorem mem_sendable (h : Sent maxMessageSize defs gds tmp d fields) {f : RawField}
    (hf : f ∈ d.body) : Storable GroupDefs.empty f :=
  h.sendable.storable f (h.content ▸ hf)

theorem length_checkSum (tmp : Vector UInt8 6) (fields : List (FieldTag × FieldValue)) :
    ((framed tmp fields).checkSum.take 3).length = 3 := by
  rw [List.length_take, (framed_checkSum tmp fields).2]
  rfl

theorem length_wire (h : Sent maxMessageSize defs gds tmp d fields) :
    (d.assembled tmp fields).wire.length = encodedSize fields := by
  have check := (d.assembled tmp fields).length_checkField
  have sum := length_checkSum tmp fields
  have text := (framed tmp fields).length_checkText
  have whole := congrArg List.length (cut_assembled tmp h.content)
  have size : (d.assembled tmp fields).checkSum.length = 3 := sum
  rw [length_framed, List.length_append, text, (framed_checkSum tmp fields).2] at whole
  rw [TreeMessage.wire, List.length_append, check, size, whole]

theorem wellFormed (h : Sent maxMessageSize defs gds tmp d fields) :
    (d.assembled tmp fields).WellFormed maxMessageSize defs gds where
  groups := h.groups
  header := by
    intro f hf
    rcases List.mem_cons.mp hf with rfl | inside
    · have tag := (framed tmp fields).tag_beginField
      exact ⟨⟨show equals ∉ ascii "8" by decide, show soh ∉ ascii "FIX.5.0" by decide⟩,
        by rw [tag]; decide, by rw [tag]; decide, by rw [tag]; decide⟩
    · have storable := h.mem_sendable (List.mem_append_left _ inside)
      exact ⟨storable.delimited, h.middle f inside, storable.notLength, storable.notLast⟩
  length := by
    intro digits known
    obtain rfl := Option.some.inj known
    exact
      { decimal := lengthDigits_isDigit h.short tmp
        numeral := List.ne_nil_of_length_eq_add_one (length_lengthDigits tmp _)
        value := by
          rw [decimalFrom_lengthDigits h.short tmp, bodySize_assembled h.content]
        checkSum := by
          have sum : (d.assembled tmp fields).checkSum.length = 3 := length_checkSum tmp fields
          omega }
  msgType :=
    (h.mem_sendable (f := ⟨ascii "35", d.msgType⟩) (by simp [body])).delimited.value
  tree := h.tree
  checkSum := fun inside => (framed_checkSum tmp fields).1 (List.mem_of_mem_take inside)
  fits := by
    rw [h.length_wire]
    exact h.fits
  few := h.few
  room := h.room
  near := h.near

theorem lead_reaches (h : Sent maxMessageSize defs gds tmp d fields)
    (buf : MessageBuffer maxMessageSize) {l : FieldList}
    (put : KeyedList.putAll Field.takeOverMerge KeyedList.empty
      (places 0 (d.assembled tmp fields).lead) = some l) :
    ∃ groups n, Loop.Reaches (parseField defs) (d.assembled tmp fields).lead.length
      (.start buf (framed tmp fields).cut)
      ⟨window (wireAll (d.assembled tmp fields).lead)
        ((d.assembled tmp fields).typeField.wire ++
          (d.tree.wire ++ (framed tmp fields).checkText)) n,
        .single buf l, some FixMessage.root, [], groups⟩ := by
  let m := framed tmp fields
  have unended : m.Unended maxMessageSize GroupDefs.empty :=
    framed_unended h.sendable tmp h.short (by rw [length_framed]; exact h.fits)
  have storable : ∀ f ∈ d.middle, Storable defs f := by
    intro f hf
    exact (h.wellFormed.header f (List.mem_cons_of_mem _ hf)).storable defs
  rw [lead_assembled, places_append, Nat.zero_add] at put
  obtain ⟨l₀, header, put⟩ := KeyedList.exists_of_putAll_append put
  have start : wireAll [m.beginField, m.lengthField] = m.lead ++ [soh] := by
    simp [wireAll, Framed.lead, RawField.wire]
  have behind : m.body = d.body := h.content
  have rest : wireAll d.body ++ m.checkText = wireAll d.middle ++
      ((d.assembled tmp fields).typeField.wire ++ (d.tree.wire ++ m.checkText)) := by
    simp [body, wireAll_append, typeField_assembled, Node.wire]
  have bulk := unended.bulk header buf []
  rw [List.append_nil, behind] at bulk
  have run₁ : Loop.Reaches (parseField defs) _ _ _ :=
    Framed.header_done unended.headed header _ bulk
  have room := unended.room
  have less : (wireAll d.middle).length ≤ m.bodySize := by
    rw [Framed.bodySize, behind, body, wireAll_append, List.length_append]
    exact Nat.le_add_right _ _
  rw [start] at put
  obtain ⟨groups, -, run₂⟩ := reaches_fields storable buf
    ((d.assembled tmp fields).typeField.wire ++ (d.tree.wire ++ m.checkText)) (m.bodySize + 6)
    (show Quiet none from rfl) (by omega) put
  have cut : m.cut = m.lead ++ soh :: (wireAll d.body ++ m.checkText) := by
    rw [Framed.cut, behind]
  rw [rest] at run₁
  refine ⟨groups, m.bodySize + 6 - (wireAll d.middle).length, ?_⟩
  rw [lead_assembled, wireAll_append, start, cut, rest, List.length_append]
  exact run₁.trans run₂

theorem parse_laid (h : Sent maxMessageSize defs gds tmp d fields)
    (sound : GroupDefs.Sound gds) (msg : FixMessage maxMessageSize) :
    ∃ a l, FixMessage.parse (framed tmp fields).cut msg defs =
        .ok (⟨(framed tmp fields).cut, a⟩, []) ∧
      KeyedList.putAll Field.takeOverMerge KeyedList.empty
        (places 0 ((d.assembled tmp fields).lead ++ [(d.assembled tmp fields).typeField]) ++
          d.tree.entries 1 (wireAll ((d.assembled tmp fields).lead ++
            [(d.assembled tmp fields).typeField])).length) = some l ∧
      a.cells FixMessage.root = some ⟨none, l⟩ ∧ a.maps.length = 1 + d.tree.size ∧
      d.tree.Laid a.cells 1 (wireAll ((d.assembled tmp fields).lead ++
        [(d.assembled tmp fields).typeField])).length := by
  let m := d.assembled tmp fields
  obtain ⟨buf, reset, used⟩ := reset_single msg
  have formed : m.WellFormed maxMessageSize defs gds := h.wellFormed
  have check : m.checkField.wire.length = 7 := by
    rw [TreeMessage.length_checkField]
    exact congrArg (· + 4) (length_checkSum tmp fields)
  have fits : (wireAll m.lead).length +
      (m.typeField.wire.length + d.tree.wire.length + m.checkField.wire.length) ≤
        maxMessageSize := by
    have whole := formed.fits
    rwa [TreeMessage.length_wire] at whole
  obtain ⟨l₁, l₂, l', lead, type, plain, put, whole⟩ := TreeMessage.exists_stored formed
  obtain ⟨groups, n, run₁⟩ := h.lead_reaches buf lead
  have round := TreeMessage.type_round formed sound buf
    (d.tree.wire ++ (framed tmp fields).checkText) n groups type (by omega)
  obtain ⟨a, run₂, grown, laid⟩ := Node.parsed sound defs d.tree h.tree
    (TreeMessage.tree_ready formed used plain put) (framed tmp fields).checkText
    (n - m.typeField.wire.length) []
  have run := run₁.trans (.next round run₂)
  rw [TreeMessage.wireAll_lead_snoc] at laid
  refine ⟨a, l', ?_, whole, grown.cell, grown.length, laid⟩
  have text : (ascii "10").length = 2 := by decide
  have bytes : wireAll m.lead ++ m.typeField.wire ++ d.tree.wire ++
      (framed tmp fields).checkText = (framed tmp fields).cut := by
    rw [cut_assembled tmp h.content, TreeMessage.fields, wireAll_append, wireAll_cons,
      ← List.append_assoc]
    rfl
  have last : (wireAll m.lead ++ m.typeField.wire ++ d.tree.wire).length +
      (ascii "10").length + (framed tmp fields).checkSum.length < maxMessageSize := by
    rw [List.length_append, List.length_append, text, (framed_checkSum tmp fields).2]
    omega
  have budget : m.lead.length + (d.tree.flat.length + 1) ≤ (framed tmp fields).cut.length := by
    have rounds := length_le_wireAll m.lead
    have rounds' := length_le_wireAll d.tree.flat
    have type := m.typeField.length_wire
    rw [← bytes, List.length_append, List.length_append, List.length_append]
    simp only [Node.wire] at rounds' ⊢
    omega
  rw [parse_exit reset run (parseField_end (by decide) (framed_checkSum tmp fields).1 last) budget]
  change Except.ok ((⟨wireAll m.lead ++ m.typeField.wire ++ d.tree.wire ++
    (framed tmp fields).checkText ++ [], a⟩ : FixMessage maxMessageSize), []) = _
  rw [List.append_nil, bytes]

/-- The finished message shows the tree of the draft, and its own fields around it. -/
theorem parse_shown (h : Sent maxMessageSize defs gds tmp d fields)
    (sound : GroupDefs.Sound gds) (msg : FixMessage maxMessageSize) :
    ∃ parsed, FixMessage.parse (framed tmp fields).cut msg defs = .ok (parsed, []) ∧
      Exactly parsed FixMessage.root (d.assembled tmp fields).own d.tree.blockTags ∧
      d.tree.Shown parsed FixMessage.root := by
  obtain ⟨a, l, parse, put, cell, size, laid⟩ := h.parse_laid sound msg
  have legible : ∀ p ∈ spots 0 (d.assembled tmp fields).fields,
      Legible (framed tmp fields).cut p := by
    rw [cut_assembled tmp h.content]
    exact legible_of_near h.near (framed tmp fields).checkText
  exact ⟨_, parse, TreeMessage.shown_of_laid (m := d.assembled tmp fields) sound h.tree put cell
    size laid legible⟩

end Sent

variable {start b c : Builder}

/-- A draft that any mix of `addField` and `append` calls has put into a builder behind
`reset` is finished and parsed to its tree just when the builder has room for it and one
more trailer. -/
theorem assembled_shown_iff (sound : GroupDefs.Sound gds)
    (h : Sent maxMessageSize defs gds tmp d fields) (cleared : reset.run start = .ok () b)
    (added : Adds b fields c) (msg : FixMessage maxMessageSize) :
    (∃ bytes b' parsed, (build tmp).run c = .ok bytes b' ∧
        FixMessage.parse bytes msg defs = .ok (parsed, []) ∧
        Exactly parsed FixMessage.root (d.assembled tmp fields).own d.tree.blockTags ∧
        d.tree.Shown parsed FixMessage.root) ↔
      encodedSize fields + 7 ≤ start.maxMessageSize := by
  rw [reset_ok (room_of_reset cleared)] at cleared
  cases cleared
  rw [added.progress _ rfl]
  obtain ⟨builds, back⟩ := build_progress tmp start.maxMessageSize fields
  constructor
  · rintro ⟨bytes, b', -, built, -⟩
    exact (back bytes b' built).1
  · intro room
    obtain ⟨b', built⟩ := builds room
    obtain ⟨parsed, parse, shown⟩ := h.parse_shown sound msg
    exact ⟨_, b', parsed, built, parse, shown⟩

def legFields : List (FieldTag × FieldValue) :=
  [(.msgType, .text (ascii "s")), (.noLegs, .int64 2), (.legSymbol, .text (ascii "IBM")),
    (.legSide, .char 49), (.noStipulations, .int64 1), (.stipulationValue, .text (ascii "V")),
    (.legSymbol, .text (ascii "MSFT")), (.text, .text (ascii "t"))]

def legDraft : Draft := ⟨[], ascii "s", TreeMessage.twoLegs⟩

theorem legDraft_sent : Sent 4096
    (GroupDefs.empty.addAll (ascii "s") [TreeMessage.legs, TreeMessage.stipulations])
    [TreeMessage.legs, TreeMessage.stipulations] (.replicate 6 0) legDraft legFields where
  content := by rfl
  sendable := ⟨by decide, by decide⟩
  short := by decide
  middle := by decide
  groups := rfl
  tree := TreeMessage.twoLegs_valid
  fits := by decide
  few := TreeMessage.few_of_length (by decide)
  room := show sizeofFieldMap * 4 + 4096 ≤ 4 * 4096 by decide
  near := near_of_length (by decide)

/-- The second leg is filled in a builder of its own, and its stipulation in a third one. -/
theorem legFields_added : ∃ c, Adds (headed 256) legFields c := by
  have front : Adds (headed 256) [(.msgType, .text (ascii "s")), (.noLegs, .int64 2),
      (.legSymbol, .text (ascii "IBM"))] _ :=
    .field (.field (.field .start rfl) rfl) rfl
  have inner : Adds (new 32) [(.stipulationValue, .text (ascii "V"))] _ := .field .start rfl
  have opened : Adds (new 64) [(.legSide, .char 49), (.noStipulations, .int64 1)] _ :=
    .field (.field .start rfl) rfl
  have leg : Adds (new 64) [(.legSide, .char 49), (.noStipulations, .int64 1),
      (.stipulationValue, .text (ascii "V")), (.legSymbol, .text (ascii "MSFT"))] _ :=
    .field (.append opened inner (show (append _).run _ = .ok (headed 32) _ from rfl)) rfl
  have whole : Adds (headed 256) legFields _ :=
    .field (.append front leg (show (append _).run _ = .ok (headed 64) _ from rfl)) rfl
  exact ⟨_, whole⟩

theorem assembled_shown_iff_two_legs :
    ∃ c bytes b' parsed, Adds (headed 256) legFields c ∧
      (build (.replicate 6 0)).run c = .ok bytes b' ∧
      FixMessage.parse bytes (emptyMessage TreeMessage.admits_4096)
        (GroupDefs.empty.addAll (ascii "s") [TreeMessage.legs, TreeMessage.stipulations]) =
          .ok (parsed, []) ∧
      TreeMessage.twoLegs.Shown parsed FixMessage.root := by
  obtain ⟨c, added⟩ := legFields_added
  have cleared : reset.run (new 256) = .ok () (headed 256) := rfl
  obtain ⟨bytes, b', parsed, built, parse, -, shown⟩ :=
    (assembled_shown_iff TreeMessage.sound_legs legDraft_sent cleared added
      (emptyMessage TreeMessage.admits_4096)).mpr (by decide)
  exact ⟨c, bytes, b', parsed, added, built, parse, shown⟩

end Draft

end FastLittleMarket.Fix
