import FastLittleMarket.Fix.Parser

/-!
What the scan loops do on a known continuation of the stream. `Cursor.window s y n`
stands behind the bytes `s` and in front of the bytes `y`, the first `n` of which are
in the buffer already; a scan over a text moves it across the text, and reads no
byte beyond the delimiter that it did not hold before.
-/

namespace FastLittleMarket.Fix

/-- A text and a value as they stand in a message, delimiters left out. -/
structure RawField where
  text : List UInt8
  value : List UInt8
  deriving DecidableEq

namespace RawField

def wire (f : RawField) : List UInt8 := f.text ++ equals :: (f.value ++ [soh])

def tag (f : RawField) : FieldTag := (stoft f.text).getD .invalid

/-- The text ends at the first `=` of the field and the value at the first `SOH`
behind it. -/
structure Delimited (f : RawField) : Prop where
  text : equals ∉ f.text
  value : soh ∉ f.value

/-- The place of the field when it starts at `start`. -/
def token (start : Nat) (f : RawField) : Token :=
  ⟨f.tag, start + f.text.length + 1, f.value.length⟩

theorem length_wire (f : RawField) : f.wire.length = f.text.length + f.value.length + 2 := by
  simp only [wire, List.length_append, List.length_cons, List.length_nil]
  omega

end RawField

namespace Cursor

variable {maxMessageSize : Nat}

def window (s y : List UInt8) (n : Nat) : Cursor := ⟨s, y.take n, y.drop n⟩

theorem advance_window (s : List UInt8) (b : UInt8) (y : List UInt8) (n : Nat) :
    (window s (b :: y) (n + 1)).advance = window (s ++ [b]) y n := rfl

@[simp] theorem scanned_window (s y : List UInt8) (n : Nat) : (window s y n).scanned = s := rfl

theorem bytes_window (s y : List UInt8) (n : Nat) : (window s y n).bytes = s ++ y.take n := rfl

/-- A byte in front of the window is there, read first if the window is empty. -/
theorem ensureChar_window {s y : List UInt8} {b : UInt8} {n : Nat}
    (fits : s.length < maxMessageSize) :
    (window s (b :: y) n).ensureChar maxMessageSize =
      .ok (some (b, window s (b :: y) (n - 1 + 1))) := by
  cases n with
  | zero =>
      have room : ¬ maxMessageSize ≤ s.length := Nat.not_le_of_lt fits
      simp only [ensureChar, window, List.take_zero, List.drop_zero, if_neg room]
      rfl
  | succ n => rfl

theorem ensureChar_end (s : List UInt8) (n : Nat) :
    (window s [] n).ensureChar maxMessageSize = .ok none := by
  simp [ensureChar, window]

theorem scanBody_next {s : List UInt8} {b delimiter : UInt8} (y : List UInt8) (n : Nat)
    (fits : s.length < maxMessageSize) (other : b ≠ delimiter) :
    scanBody maxMessageSize delimiter (window s (b :: y) n) =
      .ok (.next (window (s ++ [b]) y (n - 1))) := by
  simp only [scanBody, ensureChar_window fits, if_neg other, advance_window]

theorem scanBody_found {s y : List UInt8} {delimiter : UInt8} {n : Nat}
    (fits : s.length < maxMessageSize) :
    scanBody maxMessageSize delimiter (window s (delimiter :: y) n) =
      .ok (.exit (true, window s (delimiter :: y) (n - 1 + 1))) := by
  simp only [scanBody, ensureChar_window fits, if_true]

/-- A scan crosses a text that does not hold the delimiter. -/
theorem reaches_text {text : List UInt8} {delimiter : UInt8} (free : delimiter ∉ text)
    {s y : List UInt8} {n : Nat} (fits : s.length + text.length ≤ maxMessageSize) :
    Loop.Reaches (scanBody maxMessageSize delimiter) text.length (window s (text ++ y) n)
      (window (s ++ text) y (n - text.length)) := by
  induction text generalizing s n with
  | nil =>
      rw [List.append_nil]
      exact .here _
  | cons b text ih =>
      rw [List.mem_cons, not_or] at free
      obtain ⟨other, free⟩ := free
      rw [List.length_cons] at fits
      have room : s.length < maxMessageSize := by omega
      have round := scanBody_next (text ++ y) n room (Ne.symm other)
      have rest := ih free (s := s ++ [b]) (n := n - 1)
        (by rw [List.length_append, List.length_singleton]; omega)
      have joined := Loop.Reaches.next round rest
      rwa [List.append_assoc, List.singleton_append, Nat.sub_sub, Nat.add_comm 1] at joined

theorem length_window (s y : List UInt8) (n : Nat) :
    (window s y n).ahead.length + (window s y n).input.length = y.length := by
  simp only [window, List.length_take, List.length_drop]
  omega

theorem scanTo_found {text : List UInt8} {delimiter : UInt8} (free : delimiter ∉ text)
    {s : List UInt8} (rest : List UInt8) (n : Nat)
    (fits : s.length + text.length < maxMessageSize) :
    (window s (text ++ delimiter :: rest) n).scanTo maxMessageSize delimiter =
      .ok (true, window (s ++ text) (delimiter :: rest) (n - text.length - 1 + 1)) := by
  unfold scanTo
  rw [length_window]
  refine (reaches_text free (Nat.le_of_lt fits)).exit (scanBody_found ?_) ?_
  · rwa [List.length_append]
  · simp only [List.length_append, List.length_cons]
    omega

theorem scanTo_end {text : List UInt8} {delimiter : UInt8} (free : delimiter ∉ text)
    {s : List UInt8} (n : Nat) (fits : s.length + text.length ≤ maxMessageSize) :
    (window s text n).scanTo maxMessageSize delimiter =
      .ok (false, window (s ++ text) [] 0) := by
  unfold scanTo
  rw [length_window]
  have crossed := reaches_text free fits (y := []) (n := n)
  rw [List.append_nil] at crossed
  refine crossed.exit (t := window (s ++ text) [] (n - text.length)) ?_ (Nat.lt_succ_self _)
  simp only [scanBody, ensureChar_end]
  simp [window]

/-- A scan that does not meet its delimiter within the size of the message leaves it. -/
theorem scanTo_excess {s y : List UInt8} {delimiter : UInt8} {n : Nat}
    (held : s.length + n ≤ maxMessageSize) (excess : maxMessageSize < s.length + y.length)
    (free : delimiter ∉ y.take (maxMessageSize - s.length)) :
    (window s y n).scanTo maxMessageSize delimiter = .error .bufferOverflow := by
  generalize named : maxMessageSize - s.length = k at free
  have parts : y.take k ++ y.drop k = y := List.take_append_drop k y
  have size : (y.take k).length = k := by
    rw [List.length_take]
    omega
  have crossed := reaches_text free (s := s) (n := n) (y := y.drop k)
    (show s.length + (y.take k).length ≤ maxMessageSize by omega)
  have empty : n - (y.take k).length = 0 := by omega
  rw [empty, parts] at crossed
  have more : y.drop k ≠ [] := by
    intro none_left
    have short := List.drop_eq_nil_iff.mp none_left
    omega
  obtain ⟨c, rest, split⟩ := List.exists_cons_of_ne_nil more
  have full : maxMessageSize ≤ (s ++ y.take k).length := by
    rw [List.length_append, size]
    omega
  unfold scanTo
  rw [length_window]
  refine crossed.fail ?_ ?_
  · rw [split]
    simp only [scanBody, ensureChar, window, List.take_zero, List.drop_zero, if_pos full]
  · rw [size]
    omega

end Cursor

open Cursor

variable {maxMessageSize : Nat}

/-- The scan of one delimited field. -/
theorem scanToken_field {f : RawField} (delimited : f.Delimited) {s : List UInt8}
    (rest : List UInt8) (n : Nat) (fits : s.length + f.wire.length ≤ maxMessageSize) :
    scanToken maxMessageSize (window s (f.wire ++ rest) n) =
      .ok (some (f.token s.length), window (s ++ (f.text ++ equals :: f.value)) (soh :: rest)
        (n - f.wire.length + 1)) := by
  rw [f.length_wire] at fits ⊢
  have split : f.wire ++ rest = f.text ++ equals :: (f.value ++ soh :: rest) := by
    simp [RawField.wire]
  have room : s.length + f.text.length < maxMessageSize := by omega
  have room' : (s ++ f.text ++ [equals]).length + f.value.length < maxMessageSize := by
    simp only [List.length_append, List.length_singleton]
    omega
  have first := scanTo_found delimited.text (f.value ++ soh :: rest) n room
  have second := scanTo_found delimited.value rest (n - f.text.length - 1) room'
  have place : s.length + f.text.length + 1 + f.value.length - (s.length + f.text.length + 1) =
      f.value.length := Nat.add_sub_cancel_left _ _
  have behind : n - f.text.length - 1 - f.value.length - 1 + 1 =
      n - (f.text.length + f.value.length + 2) + 1 := by omega
  unfold scanToken
  rw [split, first]
  simp only [bind, Except.bind, Bool.not_true, Bool.false_eq_true, ite_false, advance_window,
    second, pure, Except.pure, RawField.token, RawField.tag, scanned_window, List.drop_left]
  simp only [List.length_append, List.length_singleton, place, behind]
  simp only [List.append_assoc, List.singleton_append]

/-- A field cut short by the end of input is not scanned. -/
theorem scanToken_end {text value : List UInt8} (delimited : equals ∉ text) (free : soh ∉ value)
    {s : List UInt8} (n : Nat) (fits : s.length + text.length + value.length < maxMessageSize) :
    scanToken maxMessageSize (window s (text ++ equals :: value) n) =
      .ok (none, window (s ++ (text ++ equals :: value)) [] 0) := by
  have room : s.length + text.length < maxMessageSize := by omega
  have room' : (s ++ text ++ [equals]).length + value.length ≤ maxMessageSize := by
    simp only [List.length_append, List.length_singleton]
    omega
  have first := scanTo_found delimited value n room
  have second := scanTo_end free (n - text.length - 1) room'
  unfold scanToken
  rw [first]
  simp only [bind, Except.bind, Bool.not_true, Bool.false_eq_true, ite_false, advance_window,
    second, pure, Except.pure, Bool.not_false, ite_true]
  simp only [List.append_assoc, List.singleton_append]

end FastLittleMarket.Fix
