import FastLittleMarket.Fix.Checksum
import FastLittleMarket.Fix.Trailing

/-!
A message as the builder finishes it: it is well-formed but for the delimiter of its
checksum, and finished exactly when the builder has room for the trailer twice.
-/

namespace FastLittleMarket.Fix

open Call Builder

/-- The field that `addField` writes, as the parser takes it apart. -/
def rawField (f : FieldTag × FieldValue) : RawField := ⟨ftof f.1, f.2.bytes⟩

theorem wire_rawField (f : FieldTag × FieldValue) :
    (rawField f).wire = encodeField f.1 f.2.bytes := rfl

theorem tag_rawField (f : FieldTag × FieldValue) : (rawField f).tag = f.1 := by
  simp [RawField.tag, rawField, stoft_ftof]

theorem map_tag_rawField (fields : List (FieldTag × FieldValue)) :
    (fields.map rawField).map RawField.tag = fields.map Prod.fst := by
  simp [Function.comp_def, tag_rawField]

/-- `addField` of each pair in turn. -/
def addFields : List (FieldTag × FieldValue) → Call Unit
  | [] => pure ()
  | f :: fields => do
      addField f.1 f.2
      addFields fields

def encode (tmp : Vector UInt8 6) (fields : List (FieldTag × FieldValue)) :
    Call (List UInt8) := do
  reset
  addFields fields
  build tmp

def bodyOf (fields : List (FieldTag × FieldValue)) : List UInt8 :=
  wireAll (fields.map rawField)

/-- The size of the finished message: header, body and trailer. -/
def encodedSize (fields : List (FieldTag × FieldValue)) : Nat :=
  19 + (bodyOf fields).length + 7

/-- The back-filled digits of BodyLength. -/
def lengthDigits (tmp : Vector UInt8 6) (n : Nat) : List UInt8 :=
  List.replicate (bodyLenWidth - (lengthChars tmp n).length) 48 ++ lengthChars tmp n

theorem length_lengthDigits (tmp : Vector UInt8 6) (n : Nat) : (lengthDigits tmp n).length = 6 := by
  have chars := length_lengthChars tmp n
  rw [lengthDigits, List.length_append, List.length_replicate]
  exact Nat.sub_add_cancel chars

theorem lengthChars_of_lt {n : Nat} (h : n < 10 ^ 6) (tmp : Vector UInt8 6) :
    lengthChars tmp n = toChars n := by
  have short : (toChars n).length ≤ bodyLenWidth := (length_toChars_le (by decide)).mpr h
  rw [lengthChars, if_pos short]

theorem lengthDigits_isDigit {n : Nat} (h : n < 10 ^ 6) (tmp : Vector UInt8 6) :
    ∀ c ∈ lengthDigits tmp n, IsDigit c := by
  intro c hc
  rw [lengthDigits, lengthChars_of_lt h] at hc
  rcases List.mem_append.mp hc with zero | digit
  · rw [List.eq_of_mem_replicate zero]
    decide
  · exact isDigit_toChars n c digit

theorem decimalFrom_lengthDigits {n : Nat} (h : n < 10 ^ 6) (tmp : Vector UInt8 6) :
    decimalFrom 0 (lengthDigits tmp n) = n := by
  rw [lengthDigits, lengthChars_of_lt h, decimalFrom_zeros, decimalFrom_toChars]

/-- Everything in front of the trailer. -/
def written (tmp : Vector UInt8 6) (fields : List (FieldTag × FieldValue)) : List UInt8 :=
  beginString ++ ascii "9=" ++ lengthDigits tmp (bodyOf fields).length ++ soh :: bodyOf fields

/-- The finished message, whose checksum value is a zero and the three digits. -/
def framed (tmp : Vector UInt8 6) (fields : List (FieldTag × FieldValue)) : Framed where
  beginString := ascii "FIX.5.0"
  bodyLength := lengthDigits tmp (bodyOf fields).length
  body := fields.map rawField
  checkSum := (checksumChars (written tmp fields)).drop 3

theorem cut_framed (tmp : Vector UInt8 6) (fields : List (FieldTag × FieldValue)) :
    (framed tmp fields).cut = written tmp fields ++ checksumChars (written tmp fields) := by
  have trailer : ascii "10" ++ equals :: (checksumChars (written tmp fields)).drop 3 =
      checksumChars (written tmp fields) := by
    obtain ⟨d₁, d₂, d₃, -, -, -, -, chars⟩ := checksumChars_eq (written tmp fields)
    rw [chars]
    rfl
  have lead : (framed tmp fields).lead =
      beginString ++ ascii "9=" ++ lengthDigits tmp (bodyOf fields).length := by
    have header : beginString ++ ascii "9=" =
        ascii "8" ++ equals :: (ascii "FIX.5.0" ++ [soh]) ++ (ascii "9" ++ [equals]) := by decide
    rw [header]
    simp [Framed.lead, Framed.beginField, Framed.lengthField, RawField.wire, framed]
  have text : (framed tmp fields).checkText = checksumChars (written tmp fields) := trailer
  rw [Framed.cut, lead, text, written]
  simp [bodyOf, framed]

namespace Builder

/-- The builder behind `reset` and the fields `body`. -/
def progress (maxMessageSize : Nat) (body : List UInt8) : Builder where
  maxMessageSize := maxMessageSize
  message := (headed maxMessageSize).message ++ body
  bodyStart := some 19
  bodyLenDst := some 12
  bodyLength := body.length

theorem progress_nil (n : Nat) : progress n [] = headed n := by simp [progress, headed]

theorem length_headed (n : Nat) : (headed n).message.length = 19 := by
  exact (by decide : 19 = 19)

theorem progress_fits {n k : Nat} {body : List UInt8} :
    (progress n body).Fits k ↔ 19 + body.length + k + 7 ≤ n := by
  unfold Fits progress
  rw [List.length_append, length_headed]
  rfl

theorem addField_progress {n : Nat} {body : List UInt8} {f : FieldTag × FieldValue}
    (room : 19 + body.length + (rawField f).wire.length + 7 ≤ n) :
    (addField f.1 f.2).run (progress n body) = .ok () (progress n (body ++ (rawField f).wire)) := by
  rw [wire_rawField] at room
  rw [addField_eq, addWith_ok (progress_fits.mpr room), ← wire_rawField]
  have size : ((headed n).message ++ (body ++ (rawField f).wire)).length - 19 =
      (body ++ (rawField f).wire).length := by
    rw [List.length_append, length_headed]
    exact Nat.add_sub_cancel_left _ _
  simp only [account, push, progress, List.append_assoc, size]

/-- The fields are all written just when they fit, on builders that differ in the fields
they hold: `grow body` has `head` more bytes than `body`. -/
theorem addFields_grow {n head : Nat} {grow : List UInt8 → Builder}
    (room : ∀ {body : List UInt8} {k : Nat},
      (grow body).Fits k ↔ head + body.length + k + 7 ≤ n)
    (add : ∀ {body : List UInt8} {f : FieldTag × FieldValue},
      head + body.length + (rawField f).wire.length + 7 ≤ n →
        (addField f.1 f.2).run (grow body) = .ok () (grow (body ++ (rawField f).wire)))
    (fields : List (FieldTag × FieldValue)) (body : List UInt8)
    (start : head + body.length + 7 ≤ n) :
    (head + body.length + (bodyOf fields).length + 7 ≤ n →
      (addFields fields).run (grow body) = .ok () (grow (body ++ bodyOf fields))) ∧
    (∀ b', (addFields fields).run (grow body) = .ok () b' →
      head + body.length + (bodyOf fields).length + 7 ≤ n) := by
  induction fields generalizing body with
  | nil =>
      have none_left : bodyOf [] = [] := rfl
      rw [none_left, List.append_nil]
      exact ⟨fun _ => rfl, fun _ _ => start⟩
  | cons f fields ih =>
      have parts : bodyOf (f :: fields) = (rawField f).wire ++ bodyOf fields := rfl
      have size : (bodyOf (f :: fields)).length =
          (rawField f).wire.length + (bodyOf fields).length := by
        rw [parts, List.length_append]
      have longer : (body ++ (rawField f).wire).length =
          body.length + (rawField f).wire.length := List.length_append
      by_cases first : head + body.length + (rawField f).wire.length + 7 ≤ n
      · obtain ⟨done, back⟩ := ih (body ++ (rawField f).wire) (by rw [longer]; omega)
        rw [longer] at done back
        rw [addFields, bind_ok (add first), size, parts, ← List.append_assoc]
        exact ⟨fun fits => done (by omega), fun b' ended => by have := back b' ended; omega⟩
      · refine ⟨fun fits => absurd fits (by omega), fun b' ended => ?_⟩
        have refused : ∃ b', (addField f.1 f.2).run (grow body) = .error .lengthError b' := by
          rw [addField_eq]
          exact addWith_error fun fits => first (room.mp fits)
        obtain ⟨b'', refused⟩ := refused
        rw [addFields, bind_error refused] at ended
        cases ended

theorem addFields_progress {n : Nat} (fields : List (FieldTag × FieldValue)) (body : List UInt8)
    (start : 19 + body.length + 7 ≤ n) :
    (19 + body.length + (bodyOf fields).length + 7 ≤ n →
      (addFields fields).run (progress n body) =
        .ok () (progress n (body ++ bodyOf fields))) ∧
    (∀ b', (addFields fields).run (progress n body) = .ok () b' →
      19 + body.length + (bodyOf fields).length + 7 ≤ n) :=
  addFields_grow progress_fits addField_progress fields body start

theorem backfill_progress (tmp : Vector UInt8 6) (n : Nat)
    (fields : List (FieldTag × FieldValue)) :
    backfillBodyLength tmp (progress n (bodyOf fields)) =
      { progress n (bodyOf fields) with message := written tmp fields } := by
  have front : (beginString ++ ascii "9=").length = 12 := by decide
  have digits := length_lengthDigits tmp (bodyOf fields).length
  have header : (progress n (bodyOf fields)).message = (beginString ++ ascii "9=") ++
      (List.replicate bodyLenWidth 48 ++ ([soh] ++ bodyOf fields)) := by
    simp [progress, headed]
  have filled : overwrite (progress n (bodyOf fields)).message 12
      (lengthDigits tmp (bodyOf fields).length) = written tmp fields := by
    have behind : ((beginString ++ ascii "9=") ++ (List.replicate bodyLenWidth 48 ++
        ([soh] ++ bodyOf fields))).drop (12 + 6) = [soh] ++ bodyOf fields := by
      rw [← List.append_assoc]
      exact List.drop_left' (by rw [List.length_append, front, List.length_replicate]; rfl)
    rw [overwrite, digits, header, List.take_left' front, behind, written]
    simp
  change { progress n (bodyOf fields) with
    message := overwrite (progress n (bodyOf fields)).message 12
      (lengthDigits tmp (bodyOf fields).length) } = _
  rw [filled]

theorem length_written (tmp : Vector UInt8 6) (fields : List (FieldTag × FieldValue)) :
    (written tmp fields).length = 19 + (bodyOf fields).length := by
  have front : (beginString ++ ascii "9=").length = 12 := by decide
  rw [written, List.length_append, List.length_append, front, length_lengthDigits,
    List.length_cons]
  omega

theorem build_progress (tmp : Vector UInt8 6) (n : Nat)
    (fields : List (FieldTag × FieldValue)) :
    (encodedSize fields + 7 ≤ n →
      ∃ b', (build tmp).run (progress n (bodyOf fields)) = .ok (framed tmp fields).cut b') ∧
    (∀ bytes b', (build tmp).run (progress n (bodyOf fields)) = .ok bytes b' →
      encodedSize fields + 7 ≤ n ∧ bytes = (framed tmp fields).cut) := by
  have fits : Fits { progress n (bodyOf fields) with message := written tmp fields }
      checksumWidth ↔ encodedSize fields + 7 ≤ n := by
    unfold Fits
    rw [length_written]
    rfl
  rw [build_eq, backfill_progress, cut_framed]
  constructor
  · intro room
    rw [if_pos (fits.mpr room)]
    exact ⟨_, rfl⟩
  · intro bytes b' built
    split at built
    · rename_i room
      cases built
      exact ⟨fits.mp room, rfl⟩
    · cases built

variable {b b' : Builder} {tmp : Vector UInt8 6} {fields : List (FieldTag × FieldValue)}
  {bytes : List UInt8}

theorem encode_ok (tmp : Vector UInt8 6) (room : encodedSize fields + 7 ≤ b.maxMessageSize) :
    ∃ b', (encode tmp fields).run b = .ok (framed tmp fields).cut b' := by
  unfold encodedSize at room
  have header : 26 ≤ b.maxMessageSize := by omega
  obtain ⟨added, -⟩ := addFields_progress fields [] header
  have done := added (by rw [List.length_nil]; omega)
  obtain ⟨b', built⟩ := (build_progress tmp b.maxMessageSize fields).1 room
  refine ⟨b', ?_⟩
  unfold encode
  rw [bind_ok (reset_ok header), ← progress_nil, bind_ok done, List.nil_append, built]

/-- What a finished message is, and what it took to finish it. -/
theorem encode_inv (h : (encode tmp fields).run b = .ok bytes b') :
    encodedSize fields + 7 ≤ b.maxMessageSize ∧ bytes = (framed tmp fields).cut := by
  obtain ⟨_, c, cleared, h⟩ := exists_of_bind_ok h
  have header := room_of_reset cleared
  rw [reset_ok header, ← progress_nil] at cleared
  cases cleared
  obtain ⟨_, d, added, h⟩ := exists_of_bind_ok h
  obtain ⟨done, fits⟩ := addFields_progress fields [] header
  have room := fits _ added
  rw [done room, List.nil_append] at added
  cases added
  exact (build_progress tmp b.maxMessageSize fields).2 _ _ h

end Builder

end FastLittleMarket.Fix
