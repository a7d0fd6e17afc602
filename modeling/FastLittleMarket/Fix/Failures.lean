import FastLittleMarket.Fix.Checksum

/-!
Calls that throw. A field is written in pieces, each of which is checked by itself, so
that the pieces in front of the one that does not fit stay in the message; `append`
checks all that it copies at once.
-/

namespace FastLittleMarket.Fix

open Call

namespace Builder

def appendBoth : EStateM BuilderFault (Builder × Builder) Unit := fun s =>
  match (copyFields s.2.message).run s.1 with
  | .error e dst => .error e (dst, s.2)
  | .ok _ dst =>
      match reset.run s.2 with
      | .error e src => .error e (dst, src)
      | .ok _ src => .ok () (dst, src)

theorem append_eq (dst src : Builder) :
    (append src).run dst =
      match appendBoth.run (dst, src) with
      | .ok _ s => .ok s.2 s.1
      | .error e s => .error e s.1 := by
  unfold append appendBoth
  simp only [EStateM.run]
  cases copied : copyFields src.message dst with
  | error e b =>
      have failed : (copyFields src.message).run dst = .error e b := copied
      exact bind_error failed
  | ok u b =>
      have done : (copyFields src.message).run dst = .ok u b := copied
      refine (bind_ok done).trans ?_
      simp only [EStateM.run]
      cases reset src <;> rfl

/-- What a caller who catches the exception can tell of the builder. -/
structure Intact (b b' : Builder) : Prop where
  message : b'.message = b.message
  bodyLength : b'.bodyLength = b.bodyLength
  build : ∀ tmp, (build tmp).run b' = (build tmp).run b

theorem Intact.refl (b : Builder) : Intact b b := ⟨rfl, rfl, fun _ => rfl⟩

/-- The call leaves the builder, and the source of an `append`, as they were if it throws. -/
def FailsIntact (b : Builder) (op : BuilderOp) : Prop :=
  (∀ b', op.call.run b = .error .lengthError b' → Intact b b') ∧
    ∀ src s, op = .append src → appendBoth.run (b, src) = .error .lengthError s →
      Intact b s.1 ∧ s.2 = src

/-- Room for the first piece of a field is room for all of it. -/
def AllOrNothing (b : Builder) : BuilderOp → Prop
  | .addField tag value =>
      b.Fits (firstPiece tag) → b.Fits (encodeField tag value.bytes).length
  | .addTime tag _ _ => b.Fits (firstPiece tag) → b.Fits ((ftof tag).length + 23)
  | .append _ => True
  | .appendSelf => True

variable {b : Builder}

theorem addWith_intact_iff (b : Builder) (tag : FieldTag) (value : List UInt8) :
    (∀ b', (addWith tag (write value)).run b = .error .lengthError b' → Intact b b') ↔
      (b.Fits (firstPiece tag) → b.Fits (encodeField tag value).length) := by
  constructor
  · intro intact first
    by_contra excess
    obtain ⟨sv, some_char, refused⟩ := addWith_refused first excess
    have same := (intact _ refused).message
    rw [push_message, List.append_right_eq_self] at same
    exact some_char same
  · intro whole b' refused
    by_cases first : b.Fits (firstPiece tag)
    · rw [addWith_ok (whole first)] at refused
      cases refused
    · rw [addWith_refused_first _ first] at refused
      cases refused
      exact .refl b

theorem copyFields_error {fields : List UInt8} {e : BuilderFault} {b' : Builder}
    (h : (copyFields fields).run b = .error e b') : b' = b := by
  rw [copyFields_eq] at h
  split at h
  · cases h
  · cases h
    rfl

theorem appendBoth_error {src : Builder} {s : Builder × Builder}
    (h : appendBoth.run (b, src) = .error .lengthError s) : s = (b, src) := by
  unfold appendBoth at h
  simp only [EStateM.run] at h
  cases copied : copyFields src.message b with
  | error e dst =>
      have kept : dst = b := copyFields_error (e := e) copied
      rw [copied] at h
      cases h
      rw [kept]
  | ok u dst =>
      rw [copied] at h
      cases cleared : reset src with
      | error e src' =>
          rw [cleared] at h
          cases h
          have ends : BuilderFault.lengthError = .terminate := noexcept_error cleared
          cases ends
      | ok u' src' =>
          rw [cleared] at h
          cases h

/-- A call that throws leaves everything as it was just when it cannot fail between the
pieces of a field. -/
theorem failing_call_intact_iff (b : Builder) (op : BuilderOp) :
    FailsIntact b op ↔ AllOrNothing b op := by
  cases op with
  | addField tag value =>
      have whole := addWith_intact_iff b tag value.bytes
      rw [← addField_eq] at whole
      exact ⟨fun h => whole.mp h.1, fun h => ⟨whole.mpr h, fun _ _ other => nomatch other⟩⟩
  | addTime tag gmt usec =>
      obtain ⟨text, written, size⟩ := exists_writeTime gmt usec
      have whole := addWith_intact_iff b tag text
      rw [← written, length_encodeField, size, Nat.add_assoc] at whole
      exact ⟨fun h => whole.mp h.1, fun h => ⟨whole.mpr h, fun _ _ other => nomatch other⟩⟩
  | append src =>
      refine iff_of_true ⟨fun b' failed => ?_, fun src' s same failed => ?_⟩ trivial
      · have both : ∃ s, appendBoth.run (b, src) = .error .lengthError s ∧ s.1 = b' := by
          change (append src >>= fun _ => pure ()).run b = _ at failed
          cases ended : appendBoth.run (b, src) with
          | ok u s =>
              have done := append_eq b src
              rw [ended] at done
              rw [bind_ok done] at failed
              cases failed
          | error e s =>
              have threw := append_eq b src
              rw [ended] at threw
              rw [bind_error threw] at failed
              cases failed
              exact ⟨s, rfl, rfl⟩
        obtain ⟨s, ended, rfl⟩ := both
        rw [appendBoth_error ended]
        exact .refl b
      · cases same
        rw [appendBoth_error failed]
        exact ⟨.refl b, rfl⟩
  | appendSelf =>
      refine iff_of_true ⟨fun b' failed => ?_, fun _ _ other => nomatch other⟩ trivial
      change (copyFields b.message >>= fun _ => reset).run b = _ at failed
      cases copied : (copyFields b.message).run b with
      | ok u c =>
          rw [bind_ok copied] at failed
          exact nomatch noexcept_error failed
      | error e c =>
          rw [bind_error copied] at failed
          cases failed
          rw [copyFields_error copied]
          exact .refl b

/-- `addField(ClOrdID, "LONGVALUE")` with room for the tag and not for the value: what is
left of the field is part of the next message. -/
theorem failing_field_leaves_tag :
    Reached 18 (new 18) ∧
      (addField .clOrdID (.text (ascii "LONGVALUE"))).run (new 18) =
        .error .lengthError { new 18 with message := ascii "11=" } ∧
      (∃ bytes b', (build (.replicate 6 0)).run { new 18 with message := ascii "11=" } =
        .ok bytes b' ∧ bytes.take 3 = ascii "11=") ∧
      ¬ FailsIntact (new 18) (.addField .clOrdID (.text (ascii "LONGVALUE"))) := by
  have refused : (addField .clOrdID (.text (ascii "LONGVALUE"))).run (new 18) =
      .error .lengthError { new 18 with message := ascii "11=" } := by rfl
  refine ⟨⟨new 18, [], .inl rfl, .start⟩, refused, ⟨_, _, rfl, by decide⟩, fun intact => ?_⟩
  have same := (intact.1 _ refused).message
  cases same

end Builder

end FastLittleMarket.Fix
