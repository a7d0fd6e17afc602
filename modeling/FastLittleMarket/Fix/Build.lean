import Mathlib.Algebra.GroupWithZero.Nat
import Mathlib.Algebra.BigOperators.Group.List.Basic
import FastLittleMarket.Library.Call
import FastLittleMarket.Fix.Builder

/-!
What builder calls do. A field is written when all its bytes and the reserve for the
trailer fit, and refused otherwise; the finished message is the one written so far
with the digits of BodyLength filled in, and a trailer of seven bytes behind it.
-/

namespace FastLittleMarket.Fix

open Call

/-- A field as the builder writes it. -/
def encodeField (tag : FieldTag) (value : List UInt8) : List UInt8 :=
  ftof tag ++ equals :: (value ++ [soh])

theorem length_encodeField (tag : FieldTag) (value : List UInt8) :
    (encodeField tag value).length = (ftof tag).length + value.length + 2 := by
  simp only [encodeField, List.length_append, List.length_cons, List.length_nil]
  omega

namespace Builder

/-- The room check of a write of `n` bytes, reserve included. -/
def Fits (b : Builder) (n : Nat) : Prop :=
  b.message.length + n + checksumWidth ≤ b.maxMessageSize

instance (b : Builder) (n : Nat) : Decidable (b.Fits n) :=
  inferInstanceAs (Decidable (_ ≤ _))

variable {b b' : Builder} {sv : List UInt8}

@[simp] theorem push_message (b : Builder) (sv : List UInt8) :
    (b.push sv).message = b.message ++ sv := rfl

@[simp] theorem push_push (b : Builder) (sv sv' : List UInt8) :
    (b.push sv).push sv' = b.push (sv ++ sv') := by
  simp [push]

theorem fits_push {n : Nat} : (b.push sv).Fits n ↔ b.Fits (sv.length + n) := by
  have size : (b.push sv).message.length = b.message.length + sv.length := by simp
  unfold Fits
  rw [size, Nat.add_assoc b.message.length]
  rfl

theorem Fits.mono {m n : Nat} (h : b.Fits n) (le : m ≤ n) : b.Fits m := by
  unfold Fits at h ⊢
  omega

theorem checkCapacity_ok {n : Nat} (h : b.Fits n) : (checkCapacity n).run b = .ok () b := by
  have room : ¬ b.message.length + n + checksumWidth > b.maxMessageSize := Nat.not_lt_of_le h
  unfold checkCapacity
  rw [bind_get, if_neg room]
  rfl

theorem checkCapacity_error {n : Nat} (h : ¬ b.Fits n) :
    (checkCapacity n).run b = .error .lengthError b := by
  have excess : b.message.length + n + checksumWidth > b.maxMessageSize := Nat.lt_of_not_le h
  unfold checkCapacity
  rw [bind_get, if_pos excess]
  rfl

theorem write_ok (h : b.Fits sv.length) : (write sv).run b = .ok () (b.push sv) := by
  unfold write
  rw [bind_ok (checkCapacity_ok h)]
  rfl

theorem write_error (h : ¬ b.Fits sv.length) : (write sv).run b = .error .lengthError b := by
  unfold write
  rw [bind_error (checkCapacity_error h)]

theorem write_inv (h : (write sv).run b = .ok () b') : b.Fits sv.length ∧ b' = b.push sv := by
  by_cases fits : b.Fits sv.length
  · rw [write_ok fits] at h
    cases h
    exact ⟨fits, rfl⟩
  · rw [write_error fits] at h
    cases h

theorem writeChar_eq (c : UInt8) : writeChar c = write [c] := rfl

/-- The overloads differ in nothing but the text they write. -/
theorem addField_eq (tag : FieldTag) (value : FieldValue) :
    addField tag value = addWith tag (write value.bytes) := by
  cases value <;> rfl

/-- A time is written as a text of 21 characters. -/
theorem exists_writeTime (gmt : Tm) (usec : Int) :
    ∃ text : List UInt8, writeTime gmt usec = write text ∧ text.length = 21 :=
  ⟨_, rfl, rfl⟩

theorem writeTag_ok {tag : FieldTag} (h : b.Fits ((ftof tag).length + 1)) :
    (writeTag tag).run b = .ok () (b.push (ftof tag ++ [equals])) := by
  have first : b.Fits (ftof tag).length := h.mono (by omega)
  have second : (b.push (ftof tag)).Fits [equals].length := fits_push.mpr h
  unfold writeTag
  rw [bind_ok (write_ok first), writeChar_eq, write_ok second, push_push]

/-- The body length as the code keeps it behind a complete field. -/
def account (b : Builder) : Builder :=
  match b.bodyStart with
  | none => b
  | some start => { b with bodyLength := b.message.length - start }

theorem addWith_ok {tag : FieldTag} {value : List UInt8}
    (h : b.Fits (encodeField tag value).length) :
    (addWith tag (write value)).run b = .ok () (b.push (encodeField tag value)).account := by
  rw [length_encodeField] at h
  have first : b.Fits ((ftof tag).length + 1) := h.mono (by omega)
  have second : (b.push (ftof tag ++ [equals])).Fits value.length := by
    rw [fits_push, List.length_append, List.length_singleton]
    exact h.mono (by omega)
  have third : (b.push (ftof tag ++ [equals] ++ value)).Fits [soh].length := by
    rw [fits_push]
    simp only [List.length_append, List.length_singleton]
    exact h.mono (by omega)
  have whole : ftof tag ++ [equals] ++ value ++ [soh] = encodeField tag value := by
    simp [encodeField]
  unfold addWith writeSOH
  rw [bind_ok (writeTag_ok first), bind_ok (write_ok second), push_push, writeChar_eq,
    bind_ok (write_ok third), push_push, whole]
  rfl

@[simp] theorem push_nil (b : Builder) : b.push [] = b := by simp [push]

/-- The size of the first piece of a field that writes anything: its tag, or the `=` behind
the empty text of an invalid tag. -/
def firstPiece (tag : FieldTag) : Nat := max 1 (ftof tag).length

/-- A field whose first piece does not fit is refused before anything is written. -/
theorem addWith_refused_first {tag : FieldTag} (value : Call Unit)
    (h : ¬ b.Fits (firstPiece tag)) : (addWith tag value).run b = .error .lengthError b := by
  have refused : (writeTag tag).run b = .error .lengthError b := by
    unfold writeTag
    by_cases text : b.Fits (ftof tag).length
    · have empty : ftof tag = [] := by
        by_contra some_char
        have long := List.length_pos_iff.mpr some_char
        have size : firstPiece tag = (ftof tag).length := Nat.max_eq_right long
        exact h (size ▸ text)
      have one : firstPiece tag = 1 := by rw [firstPiece, empty]; rfl
      rw [bind_ok (write_ok text), empty, push_nil, writeChar_eq]
      rw [one] at h
      exact write_error h
    · exact bind_error (write_error text)
  exact bind_error refused

/-- Behind its first piece a field that does not fit is refused at the write that meets the
limit, with the writes before it done. -/
theorem addWith_refused {tag : FieldTag} {value : List UInt8} (first : b.Fits (firstPiece tag))
    (h : ¬ b.Fits (encodeField tag value).length) :
    ∃ sv, sv ≠ [] ∧ (addWith tag (write value)).run b = .error .lengthError (b.push sv) := by
  rw [length_encodeField] at h
  unfold addWith writeSOH
  by_cases second : b.Fits ((ftof tag).length + 1)
  · have some_char : ftof tag ++ [equals] ≠ [] := by simp
    rw [bind_ok (writeTag_ok second)]
    by_cases third : (b.push (ftof tag ++ [equals])).Fits value.length
    · have last : ¬ (b.push (ftof tag ++ [equals] ++ value)).Fits [soh].length := by
        rw [fits_push]
        simp only [List.length_append, List.length_singleton]
        exact fun fits => h (fits.mono (by omega))
      rw [bind_ok (write_ok third), push_push, writeChar_eq, bind_error (write_error last)]
      exact ⟨_, List.append_ne_nil_of_left_ne_nil some_char _, rfl⟩
    · rw [bind_error (write_error third)]
      exact ⟨_, some_char, rfl⟩
  · have some_char : ftof tag ≠ [] := by
      intro empty
      rw [empty] at second
      exact second (first.mono (Nat.le_max_left _ _))
    have refused : (writeTag tag).run b = .error .lengthError (b.push (ftof tag)) := by
      unfold writeTag
      rw [bind_ok (write_ok (first.mono (Nat.le_max_right _ _))), writeChar_eq]
      exact write_error fun fits => second (fits_push.mp fits)
    exact ⟨_, some_char, bind_error refused⟩

theorem addWith_error {tag : FieldTag} {value : List UInt8}
    (h : ¬ b.Fits (encodeField tag value).length) :
    ∃ b', (addWith tag (write value)).run b = .error .lengthError b' := by
  by_cases first : b.Fits (firstPiece tag)
  · obtain ⟨sv, -, refused⟩ := addWith_refused first h
    exact ⟨_, refused⟩
  · exact ⟨b, addWith_refused_first _ first⟩

@[simp] theorem message_account (b : Builder) : b.account.message = b.message := by
  unfold account
  split <;> rfl

/-- A field is written whole, or the call throws. -/
theorem addField_ok_iff {tag : FieldTag} {value : FieldValue} :
    (addField tag value).run b = .ok () b' ↔
      b.Fits (encodeField tag value.bytes).length ∧
        b' = (b.push (encodeField tag value.bytes)).account := by
  rw [addField_eq]
  by_cases fits : b.Fits (encodeField tag value.bytes).length
  · rw [addWith_ok fits]
    constructor
    · intro ended
      cases ended
      exact ⟨fits, rfl⟩
    · rintro ⟨-, rfl⟩
      rfl
  · have refused : ∃ b₁, (addWith tag (write value.bytes)).run b = .error .lengthError b₁ :=
      addWith_error fits
    obtain ⟨b₁, refused⟩ := refused
    rw [refused]
    exact iff_of_false (fun ended => nomatch ended) fun both => fits both.1

/-- The builder behind `reset`. -/
def headed (maxMessageSize : Nat) : Builder where
  maxMessageSize := maxMessageSize
  message := beginString ++ ascii "9=" ++ List.replicate bodyLenWidth 48 ++ [soh]
  bodyStart := some 19
  bodyLenDst := some 12
  bodyLength := 0

theorem noexcept_ok {call : Call Unit} {b' : Builder} (h : call.run b = .ok () b') :
    (noexcept call).run b = .ok () b' := by
  simp only [EStateM.run, noexcept] at h ⊢
  rw [h]

theorem noexcept_fails {call : Call Unit} {e : BuilderFault} {b' : Builder}
    (h : call.run b = .error e b') : (noexcept call).run b = .error .terminate b' := by
  simp only [EStateM.run, noexcept] at h ⊢
  rw [h]

/-- The exceptions of a `noexcept` call end the program. -/
theorem noexcept_error {call : Call Unit} {e : BuilderFault} {b' : Builder}
    (h : (noexcept call).run b = .error e b') : e = .terminate := by
  cases ends : call.run b with
  | ok u b₁ =>
      rw [noexcept_ok ends] at h
      cases h
  | error e₁ b₁ =>
      rw [noexcept_fails ends] at h
      cases h
      rfl

theorem ok_of_noexcept {call : Call Unit} {b' : Builder}
    (h : (noexcept call).run b = .ok () b') : call.run b = .ok () b' := by
  cases ends : call.run b with
  | ok u b₁ => rwa [noexcept_ok ends] at h
  | error e₁ b₁ =>
      rw [noexcept_fails ends] at h
      cases h

theorem reset_ok (h : 26 ≤ b.maxMessageSize) : reset.run b = .ok () (headed b.maxMessageSize) := by
  let blank : Builder := { b with message := [], bodyLenDst := none, bodyLength := 0 }
  have room : ∀ n ≤ 19, blank.Fits n := by
    intro n hn
    change 0 + n + 7 ≤ b.maxMessageSize
    omega
  have begin_ : beginString.length = 10 := by decide
  have tag_ : (ascii "9=").length = 2 := by decide
  have first : (write beginString).run blank = .ok () (blank.push beginString) :=
    write_ok (room _ (by rw [begin_]; decide))
  have second : (write (ascii "9=")).run (blank.push beginString) =
      .ok () (blank.push (beginString ++ ascii "9=")) := by
    rw [write_ok (fits_push.mpr (room _ (by rw [begin_, tag_]; decide))), push_push]
  let digits : Builder := { blank.push (beginString ++ ascii "9=" ++ List.replicate 6 48) with
    bodyLenDst := some 12 }
  have last : digits.Fits [soh].length := by
    change 18 + 1 + 7 ≤ b.maxMessageSize
    omega
  have third : writeSOH.run digits = .ok () (digits.push [soh]) := write_ok last
  have header : writeHeader.run blank = .ok () (headed b.maxMessageSize) := by
    unfold writeHeader
    rw [bind_ok first, bind_ok second]
    change (writeSOH >>= fun _ => _).run digits = _
    rw [bind_ok third]
    rfl
  change (noexcept _).run b = _
  apply noexcept_ok
  exact header

/-- A `reset` that returns has had room for the header. -/
theorem room_of_reset (h : reset.run b = .ok () b') : 26 ≤ b.maxMessageSize := by
  let blank : Builder := { b with message := [], bodyLenDst := none, bodyLength := 0 }
  change (noexcept _).run b = _ at h
  have header : writeHeader.run blank = .ok () b' := ok_of_noexcept h
  obtain ⟨_, b₁, first, header⟩ := exists_of_bind_ok header
  obtain ⟨_, b₂, second, header⟩ := exists_of_bind_ok header
  rw [bind_modify, bind_modify] at header
  obtain ⟨_, b₃, third, -⟩ := exists_of_bind_ok header
  obtain ⟨-, rfl⟩ := write_inv first
  obtain ⟨-, rfl⟩ := write_inv second
  have delimiter : (write [soh]).run _ = .ok _ b₃ := third
  exact (write_inv delimiter).1

theorem build_eq (tmp : Vector UInt8 6) (b : Builder) :
    (build tmp).run b =
      if (backfillBodyLength tmp b).Fits checksumWidth then
        .ok ((backfillBodyLength tmp b).message ++
            checksumChars (backfillBodyLength tmp b).message)
          ((backfillBodyLength tmp b).push (checksumChars (backfillBodyLength tmp b).message))
      else .error .lengthError (backfillBodyLength tmp b) := by
  unfold build
  rw [bind_modify]
  split
  · rename_i fits
    have check : writeChecksum.run (backfillBodyLength tmp b) =
        .ok () ((backfillBodyLength tmp b).push
          (checksumChars (backfillBodyLength tmp b).message)) := by
      unfold writeChecksum
      rw [bind_get, bind_ok (checkCapacity_ok fits)]
      rfl
    rw [bind_ok check]
    rfl
  · rename_i excess
    have check : writeChecksum.run (backfillBodyLength tmp b) =
        .error .lengthError (backfillBodyLength tmp b) := by
      unfold writeChecksum
      rw [bind_get, bind_error (checkCapacity_error excess)]
    rw [bind_error check]

end Builder

end FastLittleMarket.Fix
