import FastLittleMarket.Fix.Header

/-!
Messages without the delimiter behind their checksum. At the end of the stream such a
message is parsed like any other; with more bytes behind it, the scan for the
delimiter goes on into them.
-/

namespace FastLittleMarket.Fix

open Cursor

variable {maxMessageSize : Nat}

theorem scanToken_full {f : RawField} (delimited : f.Delimited) {s : List UInt8}
    (rest : List UInt8) {n : Nat} (held : s.length + n ≤ maxMessageSize)
    (room : s.length + f.text.length < maxMessageSize)
    (excess : maxMessageSize < s.length + f.wire.length) :
    scanToken maxMessageSize (window s (f.wire ++ rest) n) = .error .bufferOverflow := by
  rw [f.length_wire] at excess
  have split : f.wire ++ rest = f.text ++ equals :: (f.value ++ soh :: rest) := by
    simp [RawField.wire]
  have start : (s ++ f.text ++ [equals]).length = s.length + f.text.length + 1 := by
    rw [List.length_append, List.length_append, List.length_singleton]
  have first := scanTo_found delimited.text (f.value ++ soh :: rest) n room
  have held' : (s ++ f.text ++ [equals]).length + (n - f.text.length - 1) ≤ maxMessageSize := by
    omega
  have free : soh ∉ (f.value ++ soh :: rest).take
      (maxMessageSize - (s ++ f.text ++ [equals]).length) := by
    rw [List.take_append_of_le_length (by omega)]
    exact fun inside => delimited.value (List.mem_of_mem_take inside)
  have second := scanTo_excess held' (y := f.value ++ soh :: rest)
    (by rw [start, List.length_append, List.length_cons]; omega) free
  unfold scanToken
  rw [split, first]
  simp only [bind, Except.bind, Bool.not_true, Bool.false_eq_true, ite_false, advance_window,
    second]

namespace Framed

def checkText (m : Framed) : List UInt8 := m.checkField.text ++ equals :: m.checkSum

def cut (m : Framed) : List UInt8 := m.lead ++ soh :: (wireAll m.body ++ m.checkText)

theorem length_checkText (m : Framed) : m.checkText.length = m.checkSum.length + 3 := by
  have text : (ascii "10").length = 2 := by decide
  simp only [checkText, checkField, List.length_append, List.length_cons, text]
  omega

theorem cut_append (m : Framed) (z : List UInt8) :
    m.cut ++ z = m.lead ++ soh :: (wireAll m.body ++ (m.checkText ++ z)) := by
  simp [cut]

theorem length_cut (m : Framed) :
    m.cut.length = m.lead.length + 1 + m.bodySize + (m.checkSum.length + 3) := by
  simp only [cut, List.length_append, List.length_cons, length_checkText, bodySize]
  omega

/-- A message with the right body length and a checksum of four bytes. -/
structure Unended (maxMessageSize : Nat) (defs : GroupDefs) (m : Framed) : Prop where
  beginString : soh ∉ m.beginString
  near : m.beginString.length ≤ 65530
  digits : ∀ c ∈ m.bodyLength, IsDigit c
  numeral : m.bodyLength ≠ []
  short : m.bodyLength.length < 2 ^ 16
  length : decimalFrom 0 m.bodyLength = m.bodySize
  body : ∀ f ∈ m.body, Storable defs f
  checkSum : soh ∉ m.checkSum ∧ m.checkSum.length = 4
  fits : m.cut.length ≤ maxMessageSize

variable {m : Framed} {defs : GroupDefs} {buf : MessageBuffer maxMessageSize}
  {msg : FixMessage maxMessageSize} {l₂ l : FieldList}

namespace Unended

theorem size (h : m.Unended maxMessageSize defs) :
    m.lead.length + m.bodySize + 8 ≤ maxMessageSize := by
  have fits := h.fits
  rw [length_cut, h.checkSum.2] at fits
  omega

theorem headed (h : m.Unended maxMessageSize defs) : m.Headed maxMessageSize where
  beginString := h.beginString
  bodyLength := soh_notMem_of_digits h.digits
  room := by
    have size := h.size
    omega

theorem room (h : m.Unended maxMessageSize defs) :
    (m.lead ++ [soh]).length + m.bodySize ≤ maxMessageSize := by
  have size := h.size
  rw [List.length_append, List.length_singleton]
  omega

theorem bulk (h : m.Unended maxMessageSize defs)
    (put : storeAll [m.beginField, m.lengthField] = some l₂)
    (buf : MessageBuffer maxMessageSize) (z : List UInt8) :
    readBody (.single buf l₂) FixMessage.root
        (window m.lead (soh :: (wireAll m.body ++ (m.checkText ++ z))) 1) =
      .ok (true, window m.lead (soh :: (wireAll m.body ++ (m.checkText ++ z)))
        (1 + (m.bodySize + 6))) := by
  have size := h.size
  have int : 4 * maxMessageSize < 2 ^ 31 := buf.admits.int
  have value := (announced_take h.digits h.numeral h.near (by rw [h.length]; omega)
    (wireAll m.body ++ (m.checkText ++ z))).1
  have whole : m.bodyLength.take (m.bodyLength.length % 2 ^ 16) = m.bodyLength := by
    rw [Nat.mod_eq_of_lt h.short, List.take_length]
  rw [whole, h.length] at value
  have stored := getInt_header put buf (wireAll m.body ++ (m.checkText ++ z))
  rw [value] at stored
  have read := readBody_window (wireAll m.body ++ (m.checkText ++ z)) stored (by omega)
    (by omega) h.headed.room
  have behind : (wireAll m.body ++ (m.checkText ++ z)).length = m.bodySize + (7 + z.length) := by
    rw [List.length_append, List.length_append, length_checkText, h.checkSum.2, bodySize]
  have wanted : ((m.bodySize : Int) + 6).toNat = m.bodySize + 6 := by omega
  rw [behind, wanted, if_neg (by omega), decide_eq_true (by omega)] at read
  exact read

/-- The checksum is scanned with six of its seven bytes read ahead. -/
theorem check_reaches (h : m.Unended maxMessageSize defs)
    (put : storeAll [m.beginField, m.lengthField] = some l₂) (all : storeAll m.fields = some l)
    (buf : MessageBuffer maxMessageSize) (z : List UInt8) :
    ∃ groups, Loop.Reaches (parseField defs) (2 + m.body.length) (.start buf (m.cut ++ z))
      ⟨window (m.lead ++ [soh] ++ wireAll m.body) (m.checkText ++ z) 6, .single buf l,
        some FixMessage.root, [], groups⟩ := by
  rw [cut_append]
  have run := body_reaches h.headed h.body h.room put all (m.checkText ++ z)
    (h.bulk put buf z)
  rwa [Nat.add_sub_cancel_left] at run

theorem budget (z : List UInt8) : 2 + m.body.length ≤ (m.cut ++ z).length := by
  have rounds := length_le_wireAll m.body
  have lead := m.length_lead
  rw [List.length_append, length_cut, bodySize]
  omega

theorem length_scanned (h : m.Unended maxMessageSize defs) :
    (m.lead ++ [soh] ++ wireAll m.body).length + 7 ≤ maxMessageSize := by
  have size := h.size
  rw [List.length_append, List.length_append, List.length_singleton]
  rw [bodySize] at size
  omega

/-- At the end of the stream the delimiter is not missed. -/
theorem parse_cut (h : m.Unended maxMessageSize defs) (msg : FixMessage maxMessageSize)
    (all : storeAll m.fields = some l) :
    ∃ buf, FixMessage.parse m.cut msg defs = .ok (⟨m.cut, .single buf l⟩, []) := by
  obtain ⟨buf, reset, -⟩ := reset_single msg
  obtain ⟨l₂, put⟩ := m.header_stored
  obtain ⟨groups, run⟩ := h.check_reaches put all buf []
  have scanned := h.length_scanned
  have text : (ascii "10").length = 2 := by decide
  rw [List.append_nil] at run
  have room : (m.lead ++ [soh] ++ wireAll m.body).length + (ascii "10").length +
      m.checkSum.length < maxMessageSize := by
    rw [text, h.checkSum.2]
    omega
  have budget := budget (m := m) []
  rw [List.append_nil] at run budget
  refine ⟨buf, ?_⟩
  rw [parse_exit reset run (parseField_end (by decide) h.checkSum.1 room) budget]
  have whole : m.cut =
      m.lead ++ [soh] ++ wireAll m.body ++ (ascii "10" ++ equals :: m.checkSum) := by
    simp [cut, checkText, checkField]
  rw [whole, bytes_window, List.take_nil, List.append_nil]
  rfl

theorem parse_cut_full (h : m.Unended maxMessageSize defs) (msg : FixMessage maxMessageSize)
    (full : storeAll m.fields = none) (z : List UInt8) :
    FixMessage.parse (m.cut ++ z) msg defs = .error .fieldListFull := by
  obtain ⟨buf, reset, -⟩ := reset_single msg
  obtain ⟨l₂, put⟩ := m.header_stored
  rw [cut_append]
  exact body_full h.headed reset h.body h.room put full _ (h.bulk put buf z)

/-- With more fields behind it, the message is not all that the parse reads. -/
theorem parse_cut_append (h : m.Unended maxMessageSize defs) (msg : FixMessage maxMessageSize)
    {x : List UInt8} (free : soh ∉ x) (rest : List UInt8) {msg' : FixMessage maxMessageSize}
    {input : List UInt8}
    (parsed : FixMessage.parse (m.cut ++ (x ++ soh :: rest)) msg defs = .ok (msg', input)) :
    msg'.msgBytes ≠ m.cut := by
  obtain ⟨buf, reset, -⟩ := reset_single msg
  obtain ⟨l₂, put⟩ := m.header_stored
  cases all : storeAll m.fields with
  | none =>
      rw [h.parse_cut_full msg all] at parsed
      cases parsed
  | some l =>
      obtain ⟨groups, run⟩ := h.check_reaches put all buf (x ++ soh :: rest)
      have scanned := h.length_scanned
      have text : (ascii "10").length = 2 := by decide
      let field : RawField := ⟨ascii "10", m.checkSum ++ x⟩
      have size : field.wire.length = 8 + x.length := by
        rw [RawField.length_wire]
        simp only [field, text, List.length_append, h.checkSum.2]
        omega
      have delimited : field.Delimited :=
        ⟨show equals ∉ ascii "10" by decide, by simpa [field] using ⟨h.checkSum.1, free⟩⟩
      have wire : m.checkText ++ (x ++ soh :: rest) = field.wire ++ rest := by
        simp [field, RawField.wire, checkText, checkField]
      rw [wire] at run
      by_cases room : (m.lead ++ [soh] ++ wireAll m.body).length + field.wire.length ≤
          maxMessageSize
      · rw [parse_exit reset run (parseField_checkSum delimited (tag_checkField m) room)
          (budget _)] at parsed
        cases parsed
        intro same
        have longer := congrArg List.length same
        rw [length_cut, h.checkSum.2, bytes_window, List.take_succ_cons] at longer
        simp only [field, List.length_append, List.length_cons, text, h.checkSum.2, bodySize,
          List.length_nil] at longer
        omega
      · have held : (m.lead ++ [soh] ++ wireAll m.body).length + 6 ≤ maxMessageSize := by omega
        have refused := scanToken_full delimited rest held
          (by simp only [field, text]; omega) (by omega)
        have fails : parseField defs ⟨window (m.lead ++ [soh] ++ wireAll m.body)
            (field.wire ++ rest) 6, .single buf l, some FixMessage.root, [], groups⟩ =
              .error .bufferOverflow := by
          unfold parseField
          simp only [refused, bind, Except.bind]
        rw [parse_fail reset run fails (budget _)] at parsed
        cases parsed

end Unended

end Framed

end FastLittleMarket.Fix
