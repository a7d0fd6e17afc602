import FastLittleMarket.Fix.Tokens

/-!
The parser on arbitrary bytes, without groups, against the tokenizer. BodyLength fields
change what is in the buffer, and nothing else, as long as the arithmetic on their
values stays within `int`.
-/

namespace FastLittleMarket.Fix

open Cursor

section Reads

variable {maxMessageSize : Nat} {defs : GroupDefs} {buf : MessageBuffer maxMessageSize}
  {l l' : FieldList} {groups : Option (List GroupDef)} {f : RawField} {s rest : List UInt8}
  {n : Nat}

/-- The arithmetic behind a BodyLength field stays within `int`, when `ahead` bytes from
the start of the field on are in the buffer. -/
def Readable (ahead : Nat) (f : RawField) : Prop :=
  f.tag = .bodyLength →
    f.parsed = .ok f.number ∧
      -2 ^ 31 ≤ f.number + 7 - ((ahead - f.wire.length + 1 : Nat) : Int)

/-- How many bytes behind the field are in the buffer when the parser is done with it. -/
def aheadAfter (ahead : Nat) (f : RawField) : Nat :=
  if f.tag = .bodyLength then max (ahead - f.wire.length) (f.number + 6).toNat
  else ahead - f.wire.length

structure Stored (defs : GroupDefs) (f : RawField) : Prop where
  delimited : f.Delimited
  notLast : f.tag ≠ .checkSum
  quiet : f.tag = .msgType → Quiet (defs.defs f.value)

section Bulk

variable {a : Arena maxMessageSize} {S : List UInt8} {k : Nat} {M : Int}

theorem readBody_served (held : k ≤ rest.length)
    (value : a.getInt (window S (soh :: rest) (k + 1)).bytes FixMessage.root .bodyLength =
      .ok (some M))
    (low : -2 ^ 31 ≤ M + 7 - ((k + 1 : Nat) : Int)) (served : M + 6 ≤ rest.length)
    (fits : S.length + (rest.length + 1) ≤ maxMessageSize) (small : rest.length < 2 ^ 16) :
    readBody a FixMessage.root (window S (soh :: rest) (k + 1)) =
      .ok (true, window S (soh :: rest) (max k (M + 6).toNat + 1)) := by
  rw [readBody_eq held (by omega) value low (by omega), if_neg (by omega),
    decide_eq_true (by omega)]

end Bulk

variable (buf rest) in
theorem getInt_stored (length : f.tag = .bodyLength)
    (near : s.length + f.wire.length ≤ 2 ^ 16)
    (put : KeyedList.put Field.takeOverMerge l
      (Field.plain f.tag (f.token s.length).offset f.value.length) = some l') (k : Nat) :
    (Heap.single buf l').getInt
        (window (s ++ (f.text ++ equals :: f.value)) (soh :: rest) (k + 1)).bytes
        FixMessage.root .bodyLength = some <$> f.parsed := by
  have size := f.length_wire
  have split : s ++ (f.text ++ equals :: f.value) ++ soh :: rest.take k =
      s ++ f.text ++ [equals] ++ (f.value ++ soh :: rest.take k) := by simp
  have place : (f.token s.length).offset = (s ++ f.text ++ [equals]).length := by
    simp [RawField.token, Nat.add_assoc]
  have near' : (f.token s.length).offset < 2 ^ 16 ∧ f.value.length < 2 ^ 16 := by
    simp only [RawField.token]
    omega
  rw [length] at put
  rw [getInt_single put, bytes_window, List.take_succ_cons, split, announced,
    Nat.mod_eq_of_lt near'.1, Nat.mod_eq_of_lt near'.2, place, f.parseInt_value]

variable (buf) in
theorem round_stored (stored : Stored defs f) (held : n ≤ (f.wire ++ rest).length)
    (fits : s.length + (f.wire.length + rest.length) ≤ maxMessageSize)
    (near : s.length + (f.wire.length + rest.length) < 2 ^ 16)
    (put : KeyedList.put Field.takeOverMerge l
      (Field.plain f.tag (f.token s.length).offset f.value.length) = some l')
    (quiet : Quiet groups) (served : f.tag = .bodyLength → f.number + 6 ≤ rest.length)
    (readable : Readable n f) :
    ∃ groups', Quiet groups' ∧
      parseField defs ⟨window s (f.wire ++ rest) n, .single buf l, some FixMessage.root, [],
        groups⟩ =
        .ok (.next ⟨window (s ++ f.wire) rest (aheadAfter n f), .single buf l',
          some FixMessage.root, [], groups'⟩) := by
  have room : s.length + f.wire.length ≤ maxMessageSize := by omega
  by_cases length : f.tag = .bodyLength
  · have served := served length
    obtain ⟨parsed, low⟩ := readable length
    have size := f.length_wire
    rw [List.length_append] at held
    have value := getInt_stored buf rest length (by omega) put (n - f.wire.length)
    rw [parsed] at value
    have read := readBody_served (by omega) value low served
      (by simp only [List.length_append, List.length_cons]; omega) (by omega)
    refine ⟨groups, quiet, ?_⟩
    rw [parseField_bodyLength stored.delimited length room (set_single put), read]
    simp only [advance_window]
    rw [groupStep_quiet quiet, aheadAfter, if_pos length]
    simp [RawField.wire]
  · rw [aheadAfter, if_neg length]
    exact round_quiet stored.delimited stored.notLast length stored.quiet buf rest n quiet room put

theorem aheadAfter_le (held : n ≤ (f.wire ++ rest).length)
    (served : f.tag = .bodyLength → f.number + 6 ≤ rest.length) :
    aheadAfter n f ≤ rest.length := by
  rw [List.length_append] at held
  unfold aheadAfter
  split
  · have served := served ‹_›
    omega
  · omega

variable (buf) in
theorem round_overflows (stored : Stored defs f) (held : n ≤ (f.wire ++ rest).length)
    (fits : s.length + (f.wire.length + rest.length) ≤ maxMessageSize)
    (near : s.length + (f.wire.length + rest.length) < 2 ^ 16)
    (put : KeyedList.put Field.takeOverMerge l
      (Field.plain f.tag (f.token s.length).offset f.value.length) = some l')
    (unreadable : ¬ Readable n f) :
    ∃ e, parseField defs ⟨window s (f.wire ++ rest) n, .single buf l, some FixMessage.root, [],
      groups⟩ = .error e := by
  unfold Readable at unreadable
  rw [Classical.not_imp, not_and] at unreadable
  obtain ⟨length, low⟩ := unreadable
  have room : s.length + f.wire.length ≤ maxMessageSize := by omega
  rw [List.length_append] at held
  have value := getInt_stored buf rest length (by omega) put (n - f.wire.length)
  have failed : ∃ e, readBody (.single buf l') FixMessage.root
      (window (s ++ (f.text ++ equals :: f.value)) (soh :: rest) (n - f.wire.length + 1)) =
        .error e := by
    cases parsed : f.parsed with
    | error e =>
        rw [parsed] at value
        exact ⟨e, readBody_error value⟩
    | ok M =>
        rw [parsed] at value
        refine ⟨_, readBody_overflow (by omega) value (.inl ?_)⟩
        obtain rfl := RawField.parsed_eq parsed
        exact Int.not_le.mp (low parsed)
  obtain ⟨e, read⟩ := failed
  refine ⟨e, ?_⟩
  rw [parseField_bodyLength stored.delimited length room (set_single put), read]

/-- All BodyLength fields of the sequence are readable, `ahead` bytes from its start on
being in the buffer. -/
def ReadableAll : Nat → List RawField → Prop
  | _, [] => True
  | ahead, f :: fs => Readable ahead f ∧ ReadableAll (aheadAfter ahead f) fs

instance (ahead : Nat) (f : RawField) : Decidable (Readable ahead f) :=
  inferInstanceAs (Decidable (_ → _))

instance decidableReadableAll : ∀ (ahead : Nat) (fs : List RawField),
    Decidable (ReadableAll ahead fs)
  | _, [] => .isTrue trivial
  | ahead, f :: fs =>
      have := decidableReadableAll (aheadAfter ahead f) fs
      inferInstanceAs (Decidable (_ ∧ _))

/-- No BodyLength of the sequence asks for more than a stream of `size` bytes holds. It
asks for the announced bytes and seven more, from its delimiter on. -/
def Served (size start : Nat) (fs : List RawField) : Prop :=
  ∀ p ∈ spots start fs, p.2.tag = .bodyLength →
    ((p.1 + p.2.wire.length : Nat) : Int) + (p.2.number + 6) ≤ size

section Rounds

variable {fs : List RawField} {tail : List UInt8} {size : Nat}

theorem Served.head (served : Served size s.length (f :: fs))
    (whole : s.length + (f.wire.length + rest.length) = size) :
    f.tag = .bodyLength → f.number + 6 ≤ rest.length := by
  intro length
  have first := served (s.length, f) (by simp [spots]) length
  dsimp only at first
  omega

theorem Served.later (served : Served size s.length (f :: fs)) :
    Served size (s ++ f.wire).length fs := by
  intro p hp
  rw [List.length_append] at hp
  exact served p (by simp [spots, hp])

variable (buf) in
/-- A sequence of stored fields takes one round each, whatever is read ahead, unless the
arithmetic on a BodyLength among them leaves `int`. -/
theorem rounds_stored (stored : ∀ f ∈ fs, Stored defs f)
    (held : n ≤ (wireAll fs ++ tail).length) (whole : s.length + (wireAll fs ++ tail).length = size)
    (fits : size ≤ maxMessageSize) (near : size < 2 ^ 16)
    (put : KeyedList.putAll Field.takeOverMerge l (places s.length fs) = some l')
    (quiet : Quiet groups) (served : Served size s.length fs) :
    ∃ k st, k ≤ fs.length ∧
      Loop.Reaches (parseField defs) k
        ⟨window s (wireAll fs ++ tail) n, .single buf l, some FixMessage.root, [], groups⟩ st ∧
      ((ReadableAll n fs ∧ ∃ n' groups', st = ⟨window (s ++ wireAll fs) tail n', .single buf l',
          some FixMessage.root, [], groups'⟩) ∨
        (¬ ReadableAll n fs ∧ ∃ e, parseField defs st = .error e)) := by
  induction fs generalizing s n l groups with
  | nil =>
      obtain rfl := Option.some.inj put
      refine ⟨0, _, Nat.le_refl _, .here _, .inl ⟨trivial, n, groups, ?_⟩⟩
      rw [wireAll_nil, List.append_nil, List.nil_append]
  | cons f fs ih =>
      simp only [places, KeyedList.putAll] at put
      split at put
      · cases put
      · rename_i l₁ put₁
        rw [wireAll_cons, List.append_assoc] at held whole ⊢
        rw [List.length_append] at whole
        by_cases first : Readable n f
        · obtain ⟨groups₁, quiet₁, round⟩ := round_stored buf (stored f (by simp)) held (by omega)
            (by omega) put₁ quiet (served.head whole) first
          obtain ⟨k, st, le, run, outcome⟩ := ih (fun g hg => stored g (by simp [hg]))
            (s := s ++ f.wire) (aheadAfter_le held (served.head whole))
            (by rw [List.length_append]; omega) (by rwa [List.length_append]) quiet₁ served.later
          refine ⟨k + 1, st, Nat.succ_le_succ le, .next round run, ?_⟩
          rcases outcome with ⟨readable, n', groups', rfl⟩ | ⟨unreadable, fails⟩
          · exact .inl ⟨⟨first, readable⟩, n', groups', by rw [List.append_assoc]⟩
          · exact .inr ⟨fun all => unreadable all.2, fails⟩
        · refine ⟨0, _, Nat.zero_le _, .here _, .inr ⟨fun all => first all.1, ?_⟩⟩
          exact round_overflows buf (stored f (by simp)) held (by omega) (by omega) put₁ first

end Rounds

variable (defs groups s n) in
theorem leaves_end (ends : Ends rest) (fits : s.length + rest.length ≤ maxMessageSize)
    (a : Arena maxMessageSize) (map : Option Nat) (stack : List Nat) :
    ∃ c z, parseField defs ⟨window s rest n, a, map, stack, groups⟩ =
      .ok (.exit ⟨c, a, map, stack, groups⟩) ∧ c.bytes = s ++ z := by
  cases ends with
  | text free =>
      have scan : scanToken maxMessageSize (window s rest n) =
          .ok (none, window (s ++ rest) [] 0) := by
        unfold scanToken
        rw [scanTo_end free n fits]
        rfl
      refine ⟨window (s ++ rest) [] 0, rest, ?_, by
        rw [bytes_window, List.take_nil, List.append_nil]⟩
      unfold parseField
      simp only [scan, bind, Except.bind, pure, Except.pure]
  | @value text value free unended =>
      rw [List.length_append, List.length_cons] at fits
      refine ⟨_, text ++ equals :: value, parseField_end free unended (by omega), ?_⟩
      rw [bytes_window, List.take_nil, List.append_nil]
  | @checkSum value free rest =>
      have delimited : RawField.Delimited ⟨ascii "10", value⟩ :=
        ⟨show equals ∉ ascii "10" by decide, free⟩
      have last : RawField.tag ⟨ascii "10", value⟩ = .checkSum :=
        Framed.tag_checkField ⟨[], [], [], value⟩
      rw [List.length_append] at fits
      exact ⟨_, _, parseField_checkSum delimited last (by omega), List.append_assoc _ _ _⟩

/-- The message's fields are those of the token list: the tags in the order they first
occur, each with the last value it has there. -/
def ReadsAs (msg : FixMessage maxMessageSize) (fs : List RawField) : Prop :=
  (∃ fields, msg.tags FixMessage.root = .ok fields ∧
    fields.map Field.tag = KeyedList.firstUses [] (fs.map RawField.tag)) ∧
    ∀ tag, msg.getString FixMessage.root tag =
      .ok ((KeyedList.lastOf RawField.tag tag fs).map RawField.value)

theorem readsAs_stored {fs : List RawField} (stored : storeAll fs = some l) (near : Near fs)
    (z : List UInt8) : ReadsAs ⟨wireAll fs ++ z, .single buf l⟩ fs := by
  refine ⟨⟨l.items, rfl, ?_⟩, getString_stored stored near buf z⟩
  have keys := KeyedList.keys_putAll stored
  rwa [map_tag_places] at keys

/-- A parse of any bytes agrees with the tokenizer exactly when the arithmetic on every
BodyLength value stays within `int`. -/
theorem parse_reads_tokens_iff {input : List UInt8} (msg : FixMessage maxMessageSize)
    (defs : GroupDefs) (fits : input.length ≤ maxMessageSize) (short : input.length ≤ 65535)
    (few : ((tokenize input).map RawField.tag).dedup.length ≤ fixMsgMaxFieldCount)
    (served : Served input.length 0 (tokenize input))
    (nothing : ∀ f ∈ tokenize input, f.tag = .msgType → Quiet (defs.defs f.value)) :
    (∃ msg' rest, FixMessage.parse input msg defs = .ok (msg', rest) ∧
      ReadsAs msg' (tokenize input)) ↔ ReadableAll 0 (tokenize input) := by
  obtain ⟨tail, split, ends, fields⟩ := tokenize_split input
  obtain ⟨buf, reset, -⟩ := reset_single msg
  obtain ⟨l, all⟩ := exists_storeAll.mpr few
  have stored : ∀ f ∈ tokenize input, Stored defs f :=
    fun f hf => ⟨(fields f hf).1, (fields f hf).2, nothing f hf⟩
  have size := congrArg List.length split
  have sizes := size
  rw [List.length_append] at sizes
  have budget := length_le_wireAll (tokenize input)
  have near : Near (tokenize input) := near_of_length (by omega)
  have whole : ([] : List UInt8).length + (wireAll (tokenize input) ++ tail).length =
      input.length := by rw [List.length_nil, Nat.zero_add, size]
  obtain ⟨k, st, le, run, outcome⟩ := rounds_stored buf stored (Nat.zero_le _) whole fits
    (by omega) all (show Quiet none from rfl) served
  rw [← split] at run
  rcases outcome with ⟨readable, n', groups', rfl⟩ | ⟨unreadable, e, fails⟩
  · obtain ⟨c, z, leaves, bytes⟩ := leaves_end defs groups' ([] ++ wireAll (tokenize input)) n'
      ends (by rw [List.nil_append]; omega) (.single buf l) (some FixMessage.root) []
    refine iff_of_true ⟨_, _, parse_exit reset run leaves (by omega), ?_⟩ readable
    dsimp only
    rw [bytes, List.nil_append]
    exact readsAs_stored all near z
  · refine iff_of_false ?_ unreadable
    rintro ⟨msg', rest, parsed, -⟩
    rw [parse_fail reset run fails (by omega)] at parsed
    cases parsed

end Reads

section Modest

variable {f : RawField} {fs : List RawField} {k n size start : Nat}

/-- Digits, or a minus sign and at most nine of them. -/
structure Modest (value : List UInt8) : Prop where
  digits : ∀ c ∈ digitsOf value, IsDigit c
  short : value.head? = some 45 → value.length ≤ 10

theorem RawField.parsed_of_modest (modest : Modest f.value) (small : f.number < 2 ^ 31) :
    f.parsed = .ok f.number ∧ -10 ^ 9 < f.number := by
  have text := bytesFrom_append [] f.value [soh]
  rw [List.nil_append, List.length_nil] at text
  have bounds : DigitsFit (digitsOf f.value) ∧ -10 ^ 9 < f.number := by
    unfold number numberOf at *
    have digits := modest.digits
    unfold digitsOf at *
    split
    · rename_i negative
      rw [if_pos negative] at digits
      have nine := modest.short negative
      have below := decimalFrom_lt digits 0
      have power : 10 ^ f.value.tail.length ≤ 10 ^ 9 :=
        Nat.pow_le_pow_right (by decide) (by rw [List.length_tail]; omega)
      have decimal := digitsFrom_decimal digits 0
      refine ⟨digitsFit_of_lt digits (by omega), ?_⟩
      rw [Int.natCast_zero] at decimal
      omega
    · rename_i unsigned
      rw [if_neg unsigned] at digits small
      have decimal := digitsFrom_decimal digits 0
      rw [Int.natCast_zero] at decimal
      exact ⟨digitsFit_of_lt digits (by omega), by omega⟩
  obtain ⟨fit, low⟩ := bounds
  refine ⟨?_, low⟩
  have reads : ReadsInt (f.value ++ [soh]) 0 f.value.length := by
    refine ⟨fun empty => ?_, text.symm ▸ fit, ?_⟩
    · rw [List.length_eq_zero_iff.mp empty]
      decide
    · rw [text]
      exact ⟨by unfold number at low; omega, small⟩
  have parsed := reads.parseInt_eq
  rwa [text, Nat.zero_add] at parsed

theorem Served.readableAll (served : Served size start fs)
    (modest : ∀ f ∈ fs, f.tag = .bodyLength → Modest f.value)
    (whole : start + ((wireAll fs).length + k) = size) (near : size < 2 ^ 16)
    (held : n ≤ (wireAll fs).length + k) : ReadableAll n fs := by
  induction fs generalizing n start with
  | nil => trivial
  | cons f fs ih =>
      rw [wireAll_cons, List.length_append] at held whole
      have first := served (start, f) (by simp [spots])
      dsimp only at first
      have later : Served size (start + f.wire.length) fs := fun p hp =>
        served p (by simp [spots, hp])
      refine ⟨fun length => ?_, ih later (fun g hg => modest g (by simp [hg])) (by omega) ?_⟩
      · have asked := first length
        obtain ⟨parsed, low⟩ := RawField.parsed_of_modest (modest f (by simp) length) (by omega)
        exact ⟨parsed, by omega⟩
      · unfold aheadAfter
        split
        · have asked := first ‹_›
          omega
        · omega

/-- Where every BodyLength is modest and the stream can serve it, the arithmetic stays within
`int`. -/
theorem readableAll_of_modest {input : List UInt8} (short : input.length ≤ 65535)
    (served : Served input.length 0 (tokenize input))
    (modest : ∀ f ∈ tokenize input, f.tag = .bodyLength → Modest f.value) :
    ReadableAll 0 (tokenize input) := by
  obtain ⟨tail, split, -, -⟩ := tokenize_split input
  have size := congrArg List.length split
  rw [List.length_append] at size
  exact served.readableAll (k := tail.length) modest (by omega) (by omega) (Nat.zero_le _)

end Modest

section Examples

/-- A negative length, an empty one, a tag text without `=`, an unknown tag and a tag
that comes twice. -/
private def unevenStream : List UInt8 :=
  ascii "8=A" ++ soh :: (ascii "9=-3" ++ soh :: (ascii "9=" ++ soh :: (ascii "35" ++
    soh :: (ascii "D=x=" ++ soh :: (ascii "11=B" ++ soh :: (ascii "11=C" ++
      soh :: (ascii "10=1" ++ [soh])))))))

theorem parse_reads_tokens_uneven :
    ∃ msg' rest, FixMessage.parse unevenStream (emptyMessage admits_600) GroupDefs.empty =
      .ok (msg', rest) ∧ ReadsAs msg' (tokenize unevenStream) :=
  (parse_reads_tokens_iff (emptyMessage admits_600) GroupDefs.empty (by decide) (by decide)
    (by decide +kernel) (by unfold Served; decide +kernel) (fun _ _ _ => rfl)).mpr
    (by decide +kernel)

private def overflowingStream : List UInt8 :=
  ascii "9=-3000000000" ++ soh :: (ascii "11=A" ++ [soh])

/-- A negative length beyond `int`: the multiplication by ten overflows. -/
theorem parse_overflows_negative_length :
    overflowingStream.length ≤ 600 ∧
      ((tokenize overflowingStream).map RawField.tag).dedup.length ≤ fixMsgMaxFieldCount ∧
      Served overflowingStream.length 0 (tokenize overflowingStream) ∧
      (∀ f ∈ tokenize overflowingStream, f.tag = .msgType →
        Quiet (GroupDefs.empty.defs f.value)) ∧
      ¬ ∃ msg' rest, FixMessage.parse overflowingStream (emptyMessage admits_600)
        GroupDefs.empty = .ok (msg', rest) ∧ ReadsAs msg' (tokenize overflowingStream) := by
  refine ⟨by decide, by decide +kernel, by unfold Served; decide +kernel, fun _ _ _ => rfl, ?_⟩
  rintro ⟨msg', rest, parsed, -⟩
  have fails : (FixMessage.parse overflowingStream (emptyMessage admits_600)
    GroupDefs.empty).toBool = false := by decide +kernel
  rw [parsed] at fails
  cases fails

end Examples

end FastLittleMarket.Fix
