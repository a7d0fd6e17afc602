import FastLittleMarket.Fix.Encode

/-!
Builders behind `reset` and builders just constructed. `reset` erases what was written
before; the header it writes is what a constructed builder does not have.
-/

namespace FastLittleMarket.Fix

open Call

namespace Builder

/-- How a call ends, without the builder it leaves. -/
def outcome {α : Type} (call : Call α) (b : Builder) : Except BuilderFault α :=
  match call.run b with
  | .ok a _ => .ok a
  | .error e _ => .error e

def bare (maxMessageSize : Nat) (body : List UInt8) : Builder := (new maxMessageSize).push body

variable {maxMessageSize n : Nat} {b b' : Builder} {tmp : Vector UInt8 6}
  {fields : List (FieldTag × FieldValue)}

theorem bare_fits {body : List UInt8} {k : Nat} :
    (bare n body).Fits k ↔ 0 + body.length + k + 7 ≤ n := by
  rw [Nat.zero_add]
  exact Iff.rfl

theorem addField_bare {body : List UInt8} {f : FieldTag × FieldValue}
    (room : 0 + body.length + (rawField f).wire.length + 7 ≤ n) :
    (addField f.1 f.2).run (bare n body) = .ok () (bare n (body ++ (rawField f).wire)) := by
  refine addField_ok_iff.mpr ⟨bare_fits.mpr room, ?_⟩
  exact (push_push (new n) body (rawField f).wire).symm

theorem addFields_error {e : BuilderFault} (h : (addFields fields).run b = .error e b') :
    e = .lengthError := by
  induction fields generalizing b with
  | nil => cases h
  | cons f fields ih =>
      by_cases fits : b.Fits (encodeField f.1 f.2.bytes).length
      · have added : (addField f.1 f.2).run b = .ok () _ := addField_ok_iff.mpr ⟨fits, rfl⟩
        rw [addFields, bind_ok added] at h
        exact ih h
      · have refused : ∃ b₁, (addField f.1 f.2).run b = .error .lengthError b₁ := by
          rw [addField_eq]
          exact addWith_error fits
        obtain ⟨b₁, refused⟩ := refused
        rw [addFields, bind_error refused] at h
        cases h
        rfl

def finish (tmp : Vector UInt8 6) (fields : List (FieldTag × FieldValue)) :
    Call (List UInt8) := do
  addFields fields
  build tmp

theorem finish_error {e : BuilderFault} (h : (finish tmp fields).run b = .error e b') :
    e = .lengthError := by
  unfold finish at h
  cases added : (addFields fields).run b with
  | error e₁ b₁ =>
      rw [bind_error added] at h
      cases h
      exact addFields_error added
  | ok u b₁ =>
      rw [bind_ok added, build_eq] at h
      split at h
      · cases h
      · cases h
        rfl

theorem outcome_eq {call : Call (List UInt8)} {bytes : List UInt8} {fits : Prop} [Decidable fits]
    (throws : ∀ e b', call.run b = .error e b' → e = .lengthError)
    (yields : fits → ∃ b', call.run b = .ok bytes b')
    (back : ∀ bytes' b', call.run b = .ok bytes' b' → fits) :
    outcome call b = if fits then .ok bytes else .error .lengthError := by
  unfold outcome
  by_cases room : fits
  · obtain ⟨b', done⟩ := yields room
    rw [if_pos room, done]
  · rw [if_neg room]
    cases ended : call.run b with
    | ok bytes' b' => exact absurd (back bytes' b' ended) room
    | error e b' => rw [throws e b' ended]

theorem build_bare (tmp : Vector UInt8 6) (n : Nat) (body : List UInt8) :
    (build tmp).run (bare n body) =
      if body.length + 14 ≤ n then
        .ok (body ++ checksumChars body) ((bare n body).push (checksumChars body))
      else .error .lengthError (bare n body) := by
  have headless : backfillBodyLength tmp (bare n body) = bare n body := rfl
  have fits : (bare n body).Fits checksumWidth ↔ body.length + 14 ≤ n := by
    rw [bare_fits, Nat.zero_add]
    exact Iff.rfl
  rw [build_eq, headless]
  simp only [fits]
  rfl

theorem outcome_new (tmp : Vector UInt8 6) (fields : List (FieldTag × FieldValue))
    (room : 7 ≤ n) :
    outcome (finish tmp fields) (new n) =
      if (bodyOf fields).length + 14 ≤ n then .ok (bodyOf fields ++ checksumChars (bodyOf fields))
      else .error .lengthError := by
  have empty : new n = bare n [] := rfl
  obtain ⟨done, back⟩ := addFields_grow bare_fits addField_bare fields []
    (show 0 + 0 + 7 ≤ n by omega)
  rw [List.length_nil, Nat.zero_add] at done back
  rw [empty]
  refine outcome_eq (fun _ _ => finish_error) (fun fits => ?_) fun bytes b' ended => ?_
  · refine ⟨(bare n (bodyOf fields)).push (checksumChars (bodyOf fields)), ?_⟩
    unfold finish
    rw [bind_ok (done (by omega)), List.nil_append, build_bare, if_pos fits]
  · obtain ⟨_, c, added, built⟩ := exists_of_bind_ok ended
    rw [done (back _ added), List.nil_append] at added
    cases added
    rw [build_bare] at built
    split at built
    · assumption
    · cases built

theorem outcome_reset (tmp : Vector UInt8 6) (fields : List (FieldTag × FieldValue))
    (room : 26 ≤ b.maxMessageSize) :
    outcome (encode tmp fields) b =
      if (bodyOf fields).length + 33 ≤ b.maxMessageSize then
        .ok (written tmp fields ++ checksumChars (written tmp fields))
      else .error .lengthError := by
  have size : encodedSize fields + 7 ≤ b.maxMessageSize ↔
      (bodyOf fields).length + 33 ≤ b.maxMessageSize := by
    unfold encodedSize
    omega
  refine outcome_eq (fun e b' ended => ?_) (fun fits => ?_) fun bytes b' ended => ?_
  · unfold encode at ended
    rw [bind_ok (reset_ok room)] at ended
    exact finish_error ended
  · rw [← cut_framed]
    exact encode_ok tmp (size.mpr fits)
  · exact size.mp (encode_inv ended).1

/-- Behind `reset` all builders of a capacity write the same message, whatever was added,
appended or built before, and a constructed one writes it without the header. -/
theorem reset_forgets (capacity : b.maxMessageSize = maxMessageSize)
    (room : 26 ≤ maxMessageSize) (tmp : Vector UInt8 6)
    (fields : List (FieldTag × FieldValue)) :
    outcome (encode tmp fields) b =
        (if (bodyOf fields).length + 33 ≤ maxMessageSize then
          .ok (written tmp fields ++ checksumChars (written tmp fields))
        else .error .lengthError) ∧
      outcome (finish tmp fields) (new maxMessageSize) =
        (if (bodyOf fields).length + 14 ≤ maxMessageSize then
          .ok (bodyOf fields ++ checksumChars (bodyOf fields))
        else .error .lengthError) := by
  refine ⟨?_, outcome_new tmp fields (by omega)⟩
  rw [← capacity] at room ⊢
  exact outcome_reset tmp fields room

/-- A builder that was built already. -/
theorem reset_forgets_one_field :
    (build (.replicate 6 0)).run oneField =
        .ok oneFieldMessage { oneField with message := oneFieldMessage } ∧
      outcome (encode (.replicate 6 0) [(.clOrdID, .text (ascii "A"))])
          { oneField with message := oneFieldMessage } = .ok oneFieldMessage ∧
      outcome (finish (.replicate 6 0) [(.clOrdID, .text (ascii "A"))]) (new 64) =
        .ok (ascii "11=A" ++ [soh] ++ ascii "10=0225") :=
  ⟨oneField_built, reset_forgets rfl (by decide) (.replicate 6 0)
    [(.clOrdID, .text (ascii "A"))]⟩

/-- The first message of a builder is without the header of every later one. -/
theorem first_message_headless :
    Reached 64 oneField ∧
      outcome (encode (.replicate 6 0) [(.clOrdID, .text (ascii "A"))]) oneField ≠
        outcome (finish (.replicate 6 0) [(.clOrdID, .text (ascii "A"))]) (new 64) := by
  have later : outcome (encode (.replicate 6 0) [(.clOrdID, .text (ascii "A"))]) oneField =
      .ok oneFieldMessage := by rfl
  have first : outcome (finish (.replicate 6 0) [(.clOrdID, .text (ascii "A"))]) (new 64) =
      .ok (ascii "11=A" ++ [soh] ++ ascii "10=0225") := by rfl
  refine ⟨oneField_reached, fun same => ?_⟩
  rw [later, first] at same
  cases same

end Builder

end FastLittleMarket.Fix
