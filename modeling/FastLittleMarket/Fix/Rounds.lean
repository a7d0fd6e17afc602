import FastLittleMarket.Fix.Tokens

/-!
The parse loop on any stream and with any group definitions: in which state a round can
start, and how it ends there.
-/

namespace FastLittleMarket.Fix

open Cursor

variable {maxMessageSize : Nat}

section Next

/-- The first complete field of a stream, and what stands behind it. -/
def nextField (bytes : List UInt8) : Option (RawField × List UInt8) :=
  match cut equals bytes with
  | none => none
  | some (text, rest) => (cut soh rest).map fun parts => (⟨text, parts.1⟩, parts.2)

/-- The bytes up to the end of the first field, or all of them if no field is complete. -/
def demand (bytes : List UInt8) : Nat :=
  match nextField bytes with
  | none => bytes.length
  | some (f, _) => f.wire.length

variable {y rest : List UInt8} {f : RawField}

theorem nextField_eq_some (h : nextField y = some (f, rest)) :
    y = f.wire ++ rest ∧ f.Delimited := by
  unfold nextField at h
  cases found : cut equals y with
  | none =>
      rw [found] at h
      cases h
  | some parts =>
      rw [found] at h
      obtain ⟨parts', ended, same⟩ := Option.map_eq_some_iff.mp h
      cases same
      obtain ⟨rfl, free⟩ := cut_eq_some found
      obtain ⟨whole, unended⟩ := cut_eq_some ended
      refine ⟨?_, free, unended⟩
      rw [whole]
      simp [RawField.wire]

theorem nextField_eq_none (h : nextField y = none) :
    equals ∉ y ∨ ∃ text value, y = text ++ equals :: value ∧ equals ∉ text ∧ soh ∉ value := by
  unfold nextField at h
  cases found : cut equals y with
  | none => exact .inl (cut_eq_none found)
  | some parts =>
      rw [found] at h
      obtain ⟨whole, free⟩ := cut_eq_some found
      exact .inr ⟨parts.1, parts.2, whole, free, cut_eq_none (Option.map_eq_none_iff.mp h)⟩

theorem demand_field (h : nextField y = some (f, rest)) : demand y = f.wire.length := by
  unfold demand
  rw [h]

theorem demand_end (h : nextField y = none) : demand y = y.length := by
  unfold demand
  rw [h]

theorem demand_le (y : List UInt8) : demand y ≤ y.length := by
  cases h : nextField y with
  | none => exact Nat.le_of_eq (demand_end h)
  | some parts =>
      rw [demand_field h, (nextField_eq_some h).1, List.length_append]
      exact Nat.le_add_right _ _

variable {s : List UInt8} {n : Nat}

theorem scanToken_none (unended : nextField y = none)
    (fits : s.length + y.length ≤ maxMessageSize) :
    scanToken maxMessageSize (window s y n) = .ok (none, window (s ++ y) [] 0) := by
  rcases nextField_eq_none unended with free | ⟨text, value, rfl, free, open_⟩
  · unfold scanToken
    rw [scanTo_end free n fits]
    rfl
  · rw [List.length_append, List.length_cons] at fits
    exact scanToken_end free open_ n (by omega)

theorem scanToken_excess_text (held : s.length + n ≤ maxMessageSize)
    (excess : maxMessageSize < s.length + y.length)
    (free : equals ∉ y.take (maxMessageSize - s.length)) :
    scanToken maxMessageSize (window s y n) = .error .bufferOverflow := by
  unfold scanToken
  rw [scanTo_excess held excess free]
  rfl

theorem scanToken_excess_value {text z : List UInt8} (held : s.length + n ≤ maxMessageSize)
    (free : equals ∉ text) (room : s.length + text.length < maxMessageSize)
    (excess : maxMessageSize < s.length + text.length + 1 + z.length)
    (unended : soh ∉ z.take (maxMessageSize - (s.length + text.length + 1))) :
    scanToken maxMessageSize (window s (text ++ equals :: z) n) = .error .bufferOverflow := by
  have first := scanTo_found free z n room
  have start : (s ++ text ++ [equals]).length = s.length + text.length + 1 := by
    rw [List.length_append, List.length_append, List.length_singleton]
  have held' : (s ++ text ++ [equals]).length + (n - text.length - 1) ≤ maxMessageSize := by
    omega
  rw [← start] at excess unended
  have second := scanTo_excess held' excess unended
  unfold scanToken
  rw [first]
  simp only [bind, Except.bind, Bool.not_true, Bool.false_eq_true, ite_false, advance_window,
    second]

theorem scanToken_excess (held : s.length + n ≤ maxMessageSize)
    (excess : maxMessageSize < s.length + demand y) :
    scanToken maxMessageSize (window s y n) = .error .bufferOverflow := by
  have whole := demand_le y
  have behind : ∀ text z : List UInt8, y = text ++ equals :: z → equals ∉ text →
      maxMessageSize < s.length + text.length + 1 + z.length →
      soh ∉ z.take (maxMessageSize - (s.length + text.length + 1)) →
      scanToken maxMessageSize (window s y n) = .error .bufferOverflow := by
    intro text z split free more unended
    rw [split] at whole ⊢
    by_cases room : s.length + text.length < maxMessageSize
    · exact scanToken_excess_value held free room more unended
    · refine scanToken_excess_text held ?_ fun inside => ?_
      · rw [List.length_append, List.length_cons]
        omega
      · rw [List.take_append_of_le_length (by omega)] at inside
        exact free (List.mem_of_mem_take inside)
  cases h : nextField y with
  | none =>
      rw [demand_end h] at excess
      rcases nextField_eq_none h with free | ⟨text, value, split, free, open_⟩
      · exact scanToken_excess_text held excess fun inside => free (List.mem_of_mem_take inside)
      · refine behind text value split free ?_ fun inside => open_ (List.mem_of_mem_take inside)
        rw [split, List.length_append, List.length_cons] at excess
        omega
  | some parts =>
      obtain ⟨f, rest⟩ := parts
      obtain ⟨split, delimited⟩ := nextField_eq_some h
      rw [demand_field h, f.length_wire] at excess
      refine behind f.text (f.value ++ soh :: rest) (by rw [split]; simp [RawField.wire])
        delimited.text ?_ fun inside => ?_
      · rw [List.length_append, List.length_cons]
        omega
      · rw [List.take_append_of_le_length (by omega)] at inside
        exact delimited.value (List.mem_of_mem_take inside)

end Next

section Round

variable (defs : GroupDefs) {s y rest : List UInt8} {n : Nat} {f : RawField}
  {a a' : Arena maxMessageSize} {map : Nat} {stack : List Nat}
  {groups : Option (List GroupDef)}

/-- The buffer in front of the delimiter of the field `f`, with `k` bytes behind it read. -/
def atDelimiter (s : List UInt8) (f : RawField) (rest : List UInt8) (k : Nat) : Cursor :=
  window (s ++ (f.text ++ equals :: f.value)) (soh :: rest) (k + 1)

/-- The bulk read of a BodyLength field, and nothing for other fields. -/
def bulk (tag : FieldTag) (a : Arena maxMessageSize) (map : Nat) (c : Cursor) :
    Except ParseFault (Bool × Cursor) :=
  if tag = .bodyLength then readBody a map c else .ok (true, c)

def entry (s : List UInt8) (f : RawField) : Field :=
  Field.plain f.tag (f.token s.length).offset f.value.length

theorem parseField_excess (a : Arena maxMessageSize) (map : Option Nat) (stack : List Nat)
    (groups : Option (List GroupDef)) (held : s.length + n ≤ maxMessageSize)
    (excess : maxMessageSize < s.length + demand y) :
    parseField defs ⟨window s y n, a, map, stack, groups⟩ = .error .bufferOverflow := by
  have scan := scanToken_excess held excess
  unfold parseField
  simp only [scan, bind, Except.bind]

theorem parseField_none (a : Arena maxMessageSize) (map : Option Nat) (stack : List Nat)
    (groups : Option (List GroupDef)) (unended : nextField y = none)
    (fits : s.length + y.length ≤ maxMessageSize) :
    parseField defs ⟨window s y n, a, map, stack, groups⟩ =
      .ok (.exit ⟨window (s ++ y) [] 0, a, map, stack, groups⟩) := by
  have scan := scanToken_none unended fits (n := n)
  unfold parseField
  simp only [scan, bind, Except.bind, pure, Except.pure]

theorem parseField_null (delimited : f.Delimited) (notLast : f.tag ≠ .checkSum)
    (a : Arena maxMessageSize) (stack : List Nat) (groups : Option (List GroupDef))
    (rest : List UInt8) (n : Nat) (fits : s.length + f.wire.length ≤ maxMessageSize) :
    parseField defs ⟨window s (f.wire ++ rest) n, a, none, stack, groups⟩ =
      .error .nullPointer := by
  have scan := scanToken_field delimited rest n fits
  unfold parseField
  simp only [scan, bind, Except.bind, RawField.token, notLast, if_false]
  rfl

theorem parseField_refused {e : ParseFault} (delimited : f.Delimited)
    (notLast : f.tag ≠ .checkSum) (stack : List Nat) (groups : Option (List GroupDef))
    (rest : List UInt8) (n : Nat) (fits : s.length + f.wire.length ≤ maxMessageSize)
    (refused : a.set map (entry s f) = .error e) :
    parseField defs ⟨window s (f.wire ++ rest) n, a, some map, stack, groups⟩ = .error e := by
  have scan := scanToken_field delimited rest n fits
  unfold parseField
  simp only [entry, RawField.token] at refused
  simp only [scan, bind, Except.bind, RawField.token, notLast, if_false, refused]

/-- A field is stored, a bulk read follows if it is BodyLength, and the group definitions
are looked through. -/
theorem parseField_stored (delimited : f.Delimited) (notLast : f.tag ≠ .checkSum)
    (stack : List Nat) (groups : Option (List GroupDef)) (rest : List UInt8) (n : Nat)
    (fits : s.length + f.wire.length ≤ maxMessageSize)
    (stored : a.set map (entry s f) = .ok a') :
    parseField defs ⟨window s (f.wire ++ rest) n, a, some map, stack, groups⟩ =
      match bulk f.tag a' map (atDelimiter s f rest (n - f.wire.length)) with
      | .error e => .error e
      | .ok (true, c) =>
          Loop.Step.next <$> groupStep map f.tag
            ⟨c.advance, a', some map, stack,
              if f.tag = .msgType then defs.defs f.value else groups⟩
      | .ok (false, c) => .ok (.exit ⟨c, a', some map, stack, groups⟩) := by
  by_cases length : f.tag = .bodyLength
  · have notType : f.tag ≠ .msgType := by
      rw [length]
      decide
    rw [parseField_bodyLength delimited length fits stored, bulk, if_pos length, length,
      if_neg (by decide)]
    rfl
  · rw [parseField_field defs delimited notLast length rest n fits stack groups stored, bulk,
      if_neg length]
    simp only [atDelimiter, advance_window]
    simp only [List.append_assoc, List.cons_append, RawField.wire]

end Round

/-- A stream of whole fields is read to its end, with all of them in the one map. -/
theorem parse_wireAll {defs : GroupDefs} {fs : List RawField} {l : FieldList}
    (storable : ∀ g ∈ fs, Storable defs g) (fits : (wireAll fs).length ≤ maxMessageSize)
    (stored : storeAll fs = some l) (msg : FixMessage maxMessageSize) :
    ∃ buf, FixMessage.parse (wireAll fs) msg defs = .ok (⟨wireAll fs, .single buf l⟩, []) := by
  obtain ⟨buf, reset, -⟩ := reset_single msg
  have room : ([] : List UInt8).length + (wireAll fs).length ≤ maxMessageSize := by
    rw [List.length_nil, Nat.zero_add]
    exact fits
  obtain ⟨groups, -, run⟩ := reaches_fields (s := []) storable buf [] 0
    (show Quiet none from rfl) room stored
  rw [List.append_nil, List.nil_append, Nat.zero_sub] at run
  have leaves := parseField_none defs (s := wireAll fs) (y := []) (n := 0) (.single buf l)
    (some FixMessage.root) [] groups rfl fits
  have parsed := parse_exit reset run leaves (length_le_wireAll fs)
  rw [bytes_window, List.take_nil, List.append_nil, List.append_nil] at parsed
  exact ⟨buf, parsed⟩

end FastLittleMarket.Fix
