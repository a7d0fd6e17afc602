import FastLittleMarket.Fix.TreeRead

/-!
Messages with repeating groups. In front of MsgType the group definitions are not yet
known, and the fields are stored as they come; behind it the content is a tree, which
is parsed to its maps, up to the checksum.
-/

namespace FastLittleMarket.Fix

open Cursor

variable {maxMessageSize : Nat}

/-- The fields in front of BodyLength, its digits if there is one, the fields behind it,
the value of MsgType, the content, and the value of CheckSum. -/
structure TreeMessage where
  front : List RawField
  bodyLength : Option (List UInt8)
  middle : List RawField
  msgType : List UInt8
  tree : Node
  checkSum : List UInt8

/-- Fields that may stand in front of MsgType. -/
structure Early (f : RawField) : Prop where
  delimited : f.Delimited
  notType : f.tag ≠ .msgType
  notLength : f.tag ≠ .bodyLength
  notLast : f.tag ≠ .checkSum

theorem Early.storable {f : RawField} (h : Early f) (defs : GroupDefs) : Storable defs f where
  delimited := h.delimited
  notLast := h.notLast
  notLength := h.notLength
  quiet type := absurd type h.notType

namespace TreeMessage

def lengthField (digits : List UInt8) : RawField := ⟨ascii "9", digits⟩

def typeField (m : TreeMessage) : RawField := ⟨ascii "35", m.msgType⟩

def checkField (m : TreeMessage) : RawField := ⟨ascii "10", m.checkSum⟩

/-- Everything in front of MsgType. -/
def lead (m : TreeMessage) : List RawField :=
  m.front ++ (m.bodyLength.toList.map lengthField ++ m.middle)

def fields (m : TreeMessage) : List RawField := m.lead ++ m.typeField :: m.tree.flat

def own (m : TreeMessage) : List RawField := m.lead ++ m.typeField :: m.tree.own

def wire (m : TreeMessage) : List UInt8 := wireAll m.fields ++ m.checkField.wire

def bodySize (m : TreeMessage) : Nat :=
  (wireAll (m.middle ++ m.typeField :: m.tree.flat)).length

/-- BodyLength counts the bytes up to the checksum. The parser reads six bytes more than
that ahead, so the checksum has at least two characters. -/
structure RightLength (m : TreeMessage) (digits : List UInt8) : Prop where
  decimal : ∀ c ∈ digits, IsDigit c
  numeral : digits ≠ []
  value : decimalFrom 0 digits = m.bodySize
  checkSum : 2 ≤ m.checkSum.length

structure WellFormed (maxMessageSize : Nat) (defs : GroupDefs) (gds : List GroupDef)
    (m : TreeMessage) : Prop where
  groups : defs.defs m.msgType = some gds
  header : ∀ f ∈ m.front ++ m.middle, Early f
  length : ∀ digits ∈ m.bodyLength, m.RightLength digits
  msgType : soh ∉ m.msgType
  tree : m.tree.Valid gds
  checkSum : soh ∉ m.checkSum
  fits : m.wire.length ≤ maxMessageSize
  few : (m.own.map RawField.tag).dedup.length ≤ fixMsgMaxFieldCount
  room : Arena.RoomFor maxMessageSize (1 + m.tree.size)
  near : Near m.fields

theorem tag_lengthField (digits : List UInt8) : (lengthField digits).tag = .bodyLength := by
  have known : stoft (ascii "9") = some .bodyLength := stoft_ftof .bodyLength
  simp [RawField.tag, lengthField, known]

theorem tag_typeField (m : TreeMessage) : m.typeField.tag = .msgType := by
  have known : stoft (ascii "35") = some .msgType := stoft_ftof .msgType
  simp [RawField.tag, typeField, known]

theorem tag_checkField (m : TreeMessage) : m.checkField.tag = .checkSum := by
  have known : stoft (ascii "10") = some .checkSum := stoft_ftof .checkSum
  simp [RawField.tag, checkField, known]

theorem length_checkField (m : TreeMessage) :
    m.checkField.wire.length = m.checkSum.length + 4 := by
  have text : (ascii "10").length = 2 := by decide
  rw [RawField.length_wire]
  simp only [checkField, text]
  omega

variable {m : TreeMessage} {defs : GroupDefs} {gds : List GroupDef}
  {buf : MessageBuffer maxMessageSize} {l l' : FieldList}

section Lead

/-- The round of a right BodyLength reads the message ahead, but for its last byte. -/
theorem length_round {digits : List UInt8} (right : m.RightLength digits)
    (defs : GroupDefs) (buf : MessageBuffer maxMessageSize) {groups : Option (List GroupDef)}
    (quiet : Quiet groups) {s : List UInt8} (rest : List UInt8)
    (put : KeyedList.put Field.takeOverMerge l
      (Field.plain (lengthField digits).tag ((lengthField digits).token s.length).offset
        digits.length) = some l')
    (near : (span (s.length, lengthField digits)).1 < 2 ^ 16 ∧
      (span (s.length, lengthField digits)).2 < 2 ^ 16)
    (fits : s.length + (lengthField digits).wire.length + m.bodySize + 6 ≤ maxMessageSize)
    (enough : m.bodySize + 6 ≤ rest.length) :
    parseField defs ⟨window s ((lengthField digits).wire ++ rest) 0, .single buf l,
        some FixMessage.root, [], groups⟩ =
      .ok (.next ⟨window (s ++ (lengthField digits).wire) rest (m.bodySize + 6),
        .single buf l', some FixMessage.root, [], groups⟩) := by
  have admits := buf.admits.int
  have delimited : (lengthField digits).Delimited :=
    ⟨show equals ∉ ascii "9" by decide, soh_notMem_of_digits right.decimal⟩
  let S := s ++ ((lengthField digits).text ++ equals :: (lengthField digits).value)
  have behind : S ++ [soh] = s ++ (lengthField digits).wire := by
    simp [S, RawField.wire]
  have size : S.length + 1 = s.length + (lengthField digits).wire.length := by
    have one : (S ++ [soh]).length = S.length + 1 := List.length_append
    rw [← one, behind, List.length_append]
  have value : (Heap.single buf l').getInt (S ++ [soh]) FixMessage.root .bodyLength =
      .ok (some (m.bodySize : Int)) := by
    rw [tag_lengthField] at put
    have number := announced_field (f := lengthField digits) right.decimal right.numeral
      (by rw [lengthField, right.value]; omega) near []
    rw [List.append_nil, lengthField, right.value] at number
    rw [getInt_single put, behind]
    exact congrArg _ number
  have read := readBody_window rest value (by omega) (by omega) (by omega)
  have toRead : ((m.bodySize : Int) + 6).toNat = m.bodySize + 6 := by omega
  rw [toRead, if_neg (by omega), decide_eq_true (by omega)] at read
  rw [parseField_bodyLength delimited (tag_lengthField digits) (by omega)
    (set_single (b := buf) put), Nat.zero_sub, Nat.zero_add, read]
  simp only [Nat.add_comm 1 (m.bodySize + 6), advance_window]
  rw [groupStep_quiet quiet, behind]
  rfl

def rest (m : TreeMessage) (s : List UInt8) : List UInt8 :=
  m.typeField.wire ++ (m.tree.wire ++ (m.checkField.wire ++ s))

theorem wire_append (m : TreeMessage) (s : List UInt8) :
    m.wire ++ s = wireAll m.lead ++ m.rest s := by
  simp [wire, fields, rest, wireAll_append, Node.wire]

theorem length_wire (m : TreeMessage) :
    m.wire.length = (wireAll m.lead).length +
      (m.typeField.wire.length + m.tree.wire.length + m.checkField.wire.length) := by
  have whole := congrArg List.length (m.wire_append [])
  simp only [rest, List.append_nil, List.length_append] at whole
  omega

theorem bodySize_eq (m : TreeMessage) :
    m.bodySize =
      (wireAll m.middle).length + (m.typeField.wire.length + m.tree.wire.length) := by
  simp [bodySize, wireAll_append, Node.wire]

/-- The fields in front of MsgType are stored, and no more is read ahead than the rest
of the message. -/
theorem lead_reaches (h : m.WellFormed maxMessageSize defs gds)
    (put : KeyedList.putAll Field.takeOverMerge KeyedList.empty (places 0 m.lead) = some l)
    (buf : MessageBuffer maxMessageSize) (s : List UInt8) :
    ∃ groups n, Loop.Reaches (parseField defs) m.lead.length (.start buf (m.wire ++ s))
        ⟨window (wireAll m.lead) (m.rest s) n, .single buf l, some FixMessage.root, [], groups⟩ ∧
      n ≤ m.typeField.wire.length + m.tree.wire.length + m.checkField.wire.length := by
  have check := m.length_checkField
  have fits := h.fits
  rw [length_wire] at fits
  rw [wire_append]
  cases known : m.bodyLength with
  | none =>
      have early : ∀ f ∈ m.lead, Storable defs f := by
        intro f hf
        have inside : f ∈ m.front ++ m.middle := by simpa [lead, known] using hf
        exact (h.header f inside).storable defs
      obtain ⟨groups, -, run⟩ := reaches_fields early buf (s := []) (m.rest s) 0
        (show Quiet none from rfl) (by rw [List.length_nil]; omega) put
      rw [List.nil_append, Nat.zero_sub] at run
      exact ⟨groups, 0, run, by omega⟩
  | some digits =>
      have right := h.length digits known
      have lead : m.lead = m.front ++ lengthField digits :: m.middle := by
        simp [lead, known]
      have size : (wireAll m.lead).length = (wireAll m.front).length +
          ((lengthField digits).wire.length + (wireAll m.middle).length) := by
        rw [lead, wireAll_append, wireAll_cons, List.length_append, List.length_append]
      have storable : ∀ f ∈ m.front, Storable defs f := fun f hf =>
        (h.header f (by simp [hf])).storable defs
      have storable' : ∀ f ∈ m.middle, Storable defs f := fun f hf =>
        (h.header f (by simp [hf])).storable defs
      have trailer := right.checkSum
      have body := m.bodySize_eq
      have near := h.near
      rw [Near, fields, nearFrom_append, lead, nearFrom_append, nearFrom_cons] at near
      obtain ⟨⟨-, near, -⟩, -⟩ := near
      rw [lead, places_append, places, Nat.zero_add] at put
      rw [Nat.zero_add] at near
      obtain ⟨l₁, put₁, put'⟩ := KeyedList.exists_of_putAll_append put
      rw [KeyedList.putAll] at put'
      split at put'
      · cases put'
      · rename_i l₂ put₂
        obtain ⟨groups, quiet, run₁⟩ := reaches_fields storable buf (s := [])
          ((lengthField digits).wire ++ (wireAll m.middle ++ m.rest s)) 0
          (show Quiet none from rfl) (by rw [List.length_nil]; omega) put₁
        have round := length_round right defs buf quiet (wireAll m.middle ++ m.rest s) put₂
          near (by omega)
          (by simp only [rest, List.length_append]; omega)
        rw [← List.length_append] at put'
        obtain ⟨groups', -, run₂⟩ := reaches_fields storable' buf (m.rest s)
          (m.bodySize + 6) quiet (by rw [List.length_append]; omega) put'
        refine ⟨groups', m.bodySize + 6 - (wireAll m.middle).length, ?_, by omega⟩
        rw [List.nil_append, Nat.zero_sub] at run₁
        have joined := run₁.trans (.next round run₂)
        have front : wireAll m.lead ++ m.rest s = wireAll m.front ++
            ((lengthField digits).wire ++ (wireAll m.middle ++ m.rest s)) := by
          simp [lead, wireAll_append]
        have behind : wireAll m.lead =
            wireAll m.front ++ (lengthField digits).wire ++ wireAll m.middle := by
          simp [lead, wireAll_append]
        rw [front, behind, lead, List.length_append, List.length_cons]
        exact joined

end Lead

section Parse

theorem stocked_single (used : buf.used = sizeofFieldMap + maxMessageSize) :
    (Heap.single buf l).Stocked := by
  unfold Arena.Stocked
  rw [Heap.single, used]
  rfl

theorem type_round (h : m.WellFormed maxMessageSize defs gds) (sound : GroupDefs.Sound gds)
    (buf : MessageBuffer maxMessageSize) {s : List UInt8} (rest : List UInt8) (n : Nat)
    (groups : Option (List GroupDef))
    (put : KeyedList.put Field.takeOverMerge l
      (Field.plain m.typeField.tag (m.typeField.token s.length).offset m.msgType.length) = some l')
    (fits : s.length + m.typeField.wire.length ≤ maxMessageSize) :
    parseField defs ⟨window s (m.typeField.wire ++ rest) n, .single buf l, some FixMessage.root,
        [], groups⟩ =
      .ok (.next ⟨window (s ++ m.typeField.wire) rest (n - m.typeField.wire.length),
        .single buf l', some FixMessage.root, [], some gds⟩) := by
  have delimited : m.typeField.Delimited := ⟨show equals ∉ ascii "35" by decide, h.msgType⟩
  have tag := m.tag_typeField
  have found : defs.defs m.typeField.value = some gds := h.groups
  rw [parseField_field defs delimited (by rw [tag]; decide) (by rw [tag]; decide) rest n fits []
    groups (set_single (b := buf) put), if_pos tag, tag, found, groupStep]
  simp only [applyGroups_plain sound.type]
  rfl

theorem exists_stored (h : m.WellFormed maxMessageSize defs gds) :
    ∃ l₁ l₂ l' : FieldList,
      KeyedList.putAll Field.takeOverMerge KeyedList.empty (places 0 m.lead) = some l₁ ∧
      KeyedList.put Field.takeOverMerge l₁ (Field.plain m.typeField.tag
        (m.typeField.token (wireAll m.lead).length).offset m.msgType.length) = some l₂ ∧
      (∀ tag x, l₂.find tag = some x → x.groups = none) ∧
      KeyedList.putAll Field.takeOverMerge l₂
        (m.tree.entries 1 (wireAll (m.lead ++ [m.typeField])).length) = some l' ∧
      KeyedList.putAll Field.takeOverMerge KeyedList.empty
        (places 0 (m.lead ++ [m.typeField]) ++
          m.tree.entries 1 (wireAll (m.lead ++ [m.typeField])).length) = some l' := by
  have few := h.few
  have tags : (places 0 (m.lead ++ [m.typeField]) ++
      m.tree.entries 1 (wireAll (m.lead ++ [m.typeField])).length).map Field.tag =
        m.own.map RawField.tag := by
    simp [own, map_tag_places, Node.map_tag_entries]
  rw [← tags] at few
  obtain ⟨l', whole⟩ := KeyedList.exists_putAll_iff.mpr few
  obtain ⟨l₂, front, put⟩ := KeyedList.exists_of_putAll_append whole
  have plain : ∀ tag x, l₂.find tag = some x → x.groups = none := by
    intro tag
    refine groups_none front fun x hx _ => ?_
    rw [places_eq] at hx
    obtain ⟨p, -, rfl⟩ := List.mem_map.mp hx
    rfl
  rw [places_append] at front
  obtain ⟨l₁, lead, type⟩ := KeyedList.exists_of_putAll_append front
  rw [Nat.zero_add, places, places, KeyedList.putAll_singleton] at type
  exact ⟨l₁, l₂, l', lead, type, plain, put, whole⟩

theorem wireAll_lead_snoc :
    wireAll m.lead ++ m.typeField.wire = wireAll (m.lead ++ [m.typeField]) := by
  simp [wireAll_append]

theorem tree_ready (h : m.WellFormed maxMessageSize defs gds)
    (used : buf.used = sizeofFieldMap + maxMessageSize)
    (plain : ∀ tag x, l.find tag = some x → x.groups = none)
    (put : KeyedList.putAll Field.takeOverMerge l
      (m.tree.entries 1 (wireAll (m.lead ++ [m.typeField])).length) = some l') :
    m.tree.Ready (.single buf l) FixMessage.root none l l'
      (wireAll m.lead ++ m.typeField.wire) := by
  have fits := h.fits
  rw [length_wire] at fits
  have near := h.near
  rw [Near, fields, List.append_cons, nearFrom_append, Nat.zero_add] at near
  rw [wireAll_lead_snoc]
  exact
    { stocked := stocked_single used
      room := h.room
      cell := rfl
      fresh := fun tag _ => plain tag
      put := put
      near := near.2
      fits := by
        rw [← wireAll_lead_snoc, List.length_append]
        omega }

/-- What the parse makes of the message, map by map. -/
theorem parse_laid (h : m.WellFormed maxMessageSize defs gds) (sound : GroupDefs.Sound gds)
    (msg : FixMessage maxMessageSize) (s : List UInt8) :
    ∃ a l, FixMessage.parse (m.wire ++ s) msg defs = .ok (⟨m.wire, a⟩, s) ∧
      KeyedList.putAll Field.takeOverMerge KeyedList.empty
        (places 0 (m.lead ++ [m.typeField]) ++
          m.tree.entries 1 (wireAll (m.lead ++ [m.typeField])).length) = some l ∧
      a.cells FixMessage.root = some ⟨none, l⟩ ∧ a.maps.length = 1 + m.tree.size ∧
      m.tree.Laid a.cells 1 (wireAll (m.lead ++ [m.typeField])).length := by
  obtain ⟨buf, reset, used⟩ := reset_single msg
  have fits := h.fits
  rw [length_wire] at fits
  obtain ⟨l₁, l₂, l', lead, type, plain, put, whole⟩ := exists_stored h
  obtain ⟨groups, n, run₁, ahead⟩ := lead_reaches h lead buf s
  have round := type_round h sound buf (m.tree.wire ++ (m.checkField.wire ++ s)) n groups type
    (by omega)
  obtain ⟨a, run₂, grown, laid⟩ := Node.parsed sound defs m.tree h.tree
    (tree_ready h used plain put) (m.checkField.wire ++ s) (n - m.typeField.wire.length) []
  have check : m.checkField.Delimited := ⟨show equals ∉ ascii "10" by decide, h.checkSum⟩
  have last : (wireAll m.lead ++ m.typeField.wire ++ m.tree.wire).length +
      m.checkField.wire.length ≤ maxMessageSize := by
    rw [List.length_append, List.length_append]
    omega
  have run := run₁.trans (.next round run₂)
  rw [wireAll_lead_snoc] at laid
  refine ⟨a, l', ?_, whole, grown.cell, grown.length, laid⟩
  have one :
      n - m.typeField.wire.length - m.tree.wire.length - m.checkField.wire.length + 1 = 1 := by
    omega
  have budget : m.lead.length + (m.tree.flat.length + 1) ≤ (m.wire ++ s).length := by
    have rounds := length_le_wireAll m.lead
    have rounds' := length_le_wireAll m.tree.flat
    have type := m.typeField.length_wire
    rw [List.length_append, length_wire]
    simp only [Node.wire] at rounds' ⊢
    omega
  have bytes : wireAll m.lead ++ m.typeField.wire ++ m.tree.wire ++
      (m.checkField.text ++ equals :: m.checkField.value) ++ [soh] = m.wire := by
    simp [wire, fields, wireAll_append, Node.wire, RawField.wire]
  rw [parse_exit reset run (parseField_checkSum check m.tag_checkField last) budget, one,
    bytes_window, List.take_succ_cons, List.take_zero, bytes]
  rfl

/-- Maps that are laid out for the message show it, where its values can be read. -/
theorem shown_of_laid (sound : GroupDefs.Sound gds) (valid : m.tree.Valid gds)
    {bytes : List UInt8} {a : Arena maxMessageSize}
    (put : KeyedList.putAll Field.takeOverMerge KeyedList.empty
      (places 0 (m.lead ++ [m.typeField]) ++
        m.tree.entries 1 (wireAll (m.lead ++ [m.typeField])).length) = some l)
    (cell : a.cells FixMessage.root = some ⟨none, l⟩) (size : a.maps.length = 1 + m.tree.size)
    (laid : m.tree.Laid a.cells 1 (wireAll (m.lead ++ [m.typeField])).length)
    (legible : ∀ p ∈ spots 0 m.fields, Legible bytes p) :
    Exactly ⟨bytes, a⟩ FixMessage.root m.own m.tree.blockTags ∧
      m.tree.Shown ⟨bytes, a⟩ FixMessage.root := by
  let head := m.lead ++ [m.typeField]
  have fields : m.fields = head ++ m.tree.flat := by simp [fields, head]
  rw [fields, spots_append, List.forall_mem_append, Nat.zero_add] at legible
  constructor
  · have own : (spots 0 head ++ m.tree.ownSpots (wireAll head).length).map Prod.snd = m.own := by
      rw [List.map_append, map_spots, Node.map_ownSpots, TreeMessage.own, List.append_cons]
    rw [← own]
    refine exactly_of_stored cell put ?_ ?_ ?_
    · rw [List.map_append, List.map_append, Node.place_entries, places_eq, List.map_map]
      rfl
    · rw [List.forall_mem_append]
      exact ⟨legible.1, fun p hp => legible.2 p (m.tree.mem_ownSpots hp)⟩
    · rw [List.forall_mem_append]
      refine ⟨fun x hx => .inl ?_, fun x hx => Node.Valid.groups_entries m.tree valid hx⟩
      rw [places_eq] at hx
      obtain ⟨p, -, rfl⟩ := List.mem_map.mp hx
      rfl
  · obtain ⟨l₁, -, tree⟩ := KeyedList.exists_of_putAll_append put
    rw [← List.append_nil (m.tree.entries _ _)] at tree
    exact Node.shown sound m.tree valid cell tree (fun x hx => by cases hx) laid
      (Nat.le_of_eq size.symm) legible.2

/-- A message with groups parses to its tree, whatever follows it in the stream. -/
theorem parse_tree (h : m.WellFormed maxMessageSize defs gds) (sound : GroupDefs.Sound gds)
    (msg : FixMessage maxMessageSize) (s : List UInt8) :
    ∃ parsed, FixMessage.parse (m.wire ++ s) msg defs = .ok (parsed, s) ∧
      Exactly parsed FixMessage.root m.own m.tree.blockTags ∧
      m.tree.Shown parsed FixMessage.root := by
  obtain ⟨a, l, parse, put, cell, size, laid⟩ := parse_laid h sound msg s
  have legible : ∀ p ∈ spots 0 m.fields, Legible m.wire p :=
    legible_of_near h.near m.checkField.wire
  exact ⟨_, parse, shown_of_laid sound h.tree put cell size laid legible⟩

end Parse

section Samples

theorem admits_4096 : Admits 4096 := ⟨by decide, by decide⟩

def legs : GroupDef := ⟨.noLegs, .legSymbol⟩

def stipulations : GroupDef := ⟨.noStipulations, .stipulationValue⟩

def sampleField (text value : String) : RawField := ⟨ascii text, ascii value⟩

def sample (tree : Node) : TreeMessage where
  front := [sampleField "8" "F"]
  bodyLength := none
  middle := []
  msgType := ascii "s"
  tree := tree
  checkSum := ascii "000"

/-- Two legs, the second with a side and a stipulation, and a text behind them. -/
def twoLegs : Node :=
  .block legs (sampleField "555" "2")
    (.cons .nil (sampleField "600" "IBM")
      (.cons
        (.field (sampleField "624" "1")
          (.block stipulations (sampleField "232" "1")
            (.cons .nil (sampleField "234" "V") .nil) .nil))
        (sampleField "600" "MSFT") .nil))
    (.field (sampleField "58" "t") .nil)

theorem sound_legs : GroupDefs.Sound [legs, stipulations] where
  distinct := by decide
  type := by decide
  length := by decide
  last := by decide
  known := by decide

section SampleFields

variable {text value : String} {t : FieldTag} {gds : List GroupDef} {gd : GroupDef} {n : Nat}

theorem tag_sampleField (known : ftof t = ascii text) : (sampleField text value).tag = t := by
  simp [RawField.tag, sampleField, ← known, stoft_ftof]

theorem sample_delimited (h : equals ∉ ascii text ∧ soh ∉ ascii value) :
    (sampleField text value).Delimited :=
  ⟨h.1, h.2⟩

theorem sample_plain (known : ftof t = ascii text) (plain : GroupDefs.Plain gds t) :
    GroupDefs.Plain gds (sampleField text value).tag := by
  rwa [tag_sampleField known]

theorem sample_count (h : equals ∉ ascii text ∧ soh ∉ ascii value)
    (known : ftof gd.groupCountTag = ascii text)
    (digits : (ascii value).all (fun c => decide (IsDigit c)) = true) (numeral : ascii value ≠ [])
    (number : decimalFrom 0 (ascii value) = n) : CountField gd n (sampleField text value) where
  delimited := sample_delimited h
  tag := tag_sampleField known
  digits := isDigit_of_all digits
  numeral := numeral
  value := number

theorem sample_end (h : equals ∉ ascii text ∧ soh ∉ ascii value)
    (known : ftof gd.groupEndTag = ascii text) : EndField gd (sampleField text value) where
  delimited := sample_delimited h
  tag := tag_sampleField known

end SampleFields

theorem few_of_length {fs : List RawField} (short : fs.length ≤ fixMsgMaxFieldCount) :
    (fs.map RawField.tag).dedup.length ≤ fixMsgMaxFieldCount := by
  refine Nat.le_trans (List.dedup_sublist _).length_le ?_
  rwa [List.length_map]

theorem stipulation_valid :
    (Instances.cons .nil (sampleField "234" "V") .nil).Valid [legs, stipulations] stipulations :=
  ⟨trivial, sample_end (by decide +kernel) (by decide +kernel), few_of_length (by decide), trivial⟩

theorem secondLeg_valid :
    (Node.field (sampleField "624" "1")
      (.block stipulations (sampleField "232" "1")
        (.cons .nil (sampleField "234" "V") .nil) .nil)).Valid [legs, stipulations] := by
  refine ⟨sample_delimited (by decide +kernel), ?_, by decide, ?_, by decide, stipulation_valid,
    by decide, trivial⟩
  · have plain : GroupDefs.Plain [legs, stipulations] .legSide :=
      ⟨by decide, by decide, by decide, by decide⟩
    exact sample_plain (by decide +kernel) plain
  · exact sample_count (by decide +kernel) (by decide +kernel) (by decide +kernel)
      (by decide +kernel) (by decide +kernel)

theorem twoLegs_valid : twoLegs.Valid [legs, stipulations] := by
  refine ⟨by decide, ?_, by decide, ⟨trivial, ?_, few_of_length (by decide), secondLeg_valid, ?_,
    few_of_length (by decide), trivial⟩, by decide, sample_delimited (by decide +kernel), ?_,
    trivial⟩
  · exact sample_count (by decide +kernel) (by decide +kernel) (by decide +kernel)
      (by decide +kernel) (by decide +kernel)
  · exact sample_end (by decide +kernel) (by decide +kernel)
  · exact sample_end (by decide +kernel) (by decide +kernel)
  · have plain : GroupDefs.Plain [legs, stipulations] .text :=
      ⟨by decide, by decide, by decide, by decide⟩
    exact sample_plain (by decide +kernel) plain

theorem twoLegs_wellFormed :
    (sample twoLegs).WellFormed 4096 (GroupDefs.empty.addAll (ascii "s") [legs, stipulations])
      [legs, stipulations] where
  groups := rfl
  header := by
    intro f hf
    obtain rfl := List.mem_singleton.mp hf
    exact ⟨⟨by decide, by decide⟩, by decide, by decide, by decide⟩
  length digits none := by cases none
  msgType := by decide
  tree := twoLegs_valid
  checkSum := by decide
  fits := by decide +kernel
  few := few_of_length (by decide)
  room := show sizeofFieldMap * 4 + 4096 ≤ 4 * 4096 by decide
  near := near_of_length (by decide)

theorem parse_tree_two_legs :
    ∃ parsed, FixMessage.parse ((sample twoLegs).wire ++ ascii "8=")
        (emptyMessage admits_4096)
        (GroupDefs.empty.addAll (ascii "s") [legs, stipulations]) = .ok (parsed, ascii "8=") ∧
      Exactly parsed FixMessage.root (sample twoLegs).own twoLegs.blockTags ∧
      twoLegs.Shown parsed FixMessage.root :=
  parse_tree twoLegs_wellFormed sound_legs (emptyMessage admits_4096) (ascii "8=")

def pair (gd : GroupDef) (count endField : RawField) : Node :=
  .block gd count (.cons .nil endField (.cons .nil endField .nil)) .nil

def crowd : Node :=
  ((fieldTagToFix.drop 40).take 63).foldr (fun text rest => .field ⟨text, []⟩ rest) .nil

/-- The message with a BodyLength. -/
def counted (tree : Node) (bodyLength checkSum : String) : TreeMessage :=
  { sample tree with bodyLength := some (ascii bodyLength), checkSum := ascii checkSum }

/-- The group that the parsed message has at `i` under the count tag of `gd`. -/
def groupAt (gd : GroupDef) (m : TreeMessage) (i : Nat) : Except ParseFault (Option Nat) := do
  let (parsed, _) ← FixMessage.parse m.wire (emptyMessage admits_4096)
    (GroupDefs.empty.add (ascii "s") gd)
  parsed.arena.getGroup FixMessage.root gd.groupCountTag i

/-- Of blocks whose tags the parser treats by itself the second instance is missed, a
MsgType that is a count tag opens a group by itself, a right BodyLength asks for more than
there is where CheckSum has one character, and the fields of the header count towards the
fields of their map. -/
theorem parse_misses_tree :
    groupAt ⟨.invalid, .legSymbol⟩ (sample
        (pair ⟨.invalid, .legSymbol⟩ (sampleField "0" "2") (sampleField "600" "A"))) 1 =
      .ok none ∧
    groupAt ⟨.noLegs, .checkSum⟩ (sample
        (pair ⟨.noLegs, .checkSum⟩ (sampleField "555" "2") (sampleField "10" "A"))) 1 =
      .ok none ∧
    groupAt ⟨.noLegs, .bodyLength⟩ (sample
        (pair ⟨.noLegs, .bodyLength⟩ (sampleField "555" "2") (sampleField "9" "99"))) 1 =
      .ok none ∧
    groupAt ⟨.msgType, .legSymbol⟩ (sample .nil) 0 = .ok (some 1) ∧
    ((counted (pair legs (sampleField "555" "2") (sampleField "600" "A")) "23" "0").bodySize =
        decimalFrom 0 (ascii "23") ∧
      groupAt legs
          (counted (pair legs (sampleField "555" "2") (sampleField "600" "A")) "23" "0") 1 =
        .ok none) ∧
    ((crowd.own.map RawField.tag).dedup.length ≤ 64 ∧
      groupAt legs (sample crowd) 0 = .error .fieldListFull) := by
  decide +kernel

end Samples

end TreeMessage

end FastLittleMarket.Fix
