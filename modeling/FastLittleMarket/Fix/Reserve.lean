import FastLittleMarket.Fix.Checksum

/-!
The reserve for the trailer. Each write leaves room for the seven bytes of the trailer,
and the trailer is written like any other, with a reserve of its own.
-/

namespace FastLittleMarket.Fix

open Call

/-- The length of the message behind a call that returns. A builder appended to itself
is reset. -/
def BuilderOp.lengthAfter (length : Nat) : BuilderOp → Nat
  | addField tag value => length + (encodeField tag value.bytes).length
  | addTime tag _ _ => length + ((ftof tag).length + 23)
  | append src => length + src.message.length
  | appendSelf => 19

namespace Builder

def Returns (b : Builder) (op : BuilderOp) (b' : Builder) : Prop := op.call.run b = .ok () b'

variable {maxMessageSize : Nat} {start b b' : Builder}

theorem copyFields_ok {fields : List UInt8} (h : (copyFields fields).run b = .ok () b') :
    b'.message = b.message ++ fields := by
  rw [copyFields_eq] at h
  split at h
  · cases h
    rfl
  · cases h

theorem addWith_message {tag : FieldTag} {value : List UInt8}
    (h : (addWith tag (write value)).run b = .ok () b') :
    b'.message = b.message ++ encodeField tag value := by
  by_cases fits : b.Fits (encodeField tag value).length
  · rw [addWith_ok fits] at h
    cases h
    exact message_account _
  · obtain ⟨c, refused⟩ := addWith_error fits
    rw [refused] at h
    cases h

theorem append_message {src src' : Builder} (h : (append src).run b = .ok src' b') :
    b'.message = b.message ++ src.message := by
  obtain ⟨_, c, copied, behind⟩ := exists_of_bind_ok h
  have same : c = b' := by
    cases cleared : reset.run src with
    | ok u d =>
        rw [cleared] at behind
        cases behind
        rfl
    | error e d =>
        rw [cleared] at behind
        cases behind
  rw [← same]
  exact copyFields_ok copied

theorem length_step {op : BuilderOp} (taken : Returns b op b') :
    b'.message.length = op.lengthAfter b.message.length := by
  cases op with
  | addField tag value =>
      change (addField tag value).run b = _ at taken
      rw [addField_eq] at taken
      rw [addWith_message taken, List.length_append]
      rfl
  | addTime tag gmt usec =>
      obtain ⟨text, written, size⟩ := exists_writeTime gmt usec
      change (addWith tag (writeTime gmt usec)).run b = _ at taken
      rw [written] at taken
      rw [addWith_message taken, List.length_append, length_encodeField, size, Nat.add_assoc]
      rfl
  | append src =>
      change (append src >>= fun _ => pure ()).run b = _ at taken
      obtain ⟨_, c, appended, ended⟩ := exists_of_bind_ok taken
      cases ended
      rw [append_message appended, List.length_append]
      rfl
  | appendSelf =>
      obtain ⟨_, c, -, cleared⟩ := exists_of_bind_ok (x := copyFields b.message) taken
      rw [reset_ok (room_of_reset cleared)] at cleared
      cases cleared
      rfl

theorem length_run {ts : List (Taken Builder BuilderOp)} (run : Run Returns start ts b) :
    b.message.length =
      (ts.map Taken.label).foldl BuilderOp.lengthAfter start.message.length := by
  refine run.invariant_of (G := fun _ => True)
    (I := fun ts s => s.message.length =
      (ts.map Taken.label).foldl BuilderOp.lengthAfter start.message.length)
    rfl ?_ fun _ _ => trivial
  intro ts s op s' _ before taken _
  rw [List.map_append, List.foldl_append, ← before]
  exact length_step taken

theorem length_checksumChars (message : List UInt8) : (checksumChars message).length = 7 := by
  obtain ⟨d₁, d₂, d₃, -, -, -, -, chars⟩ := checksumChars_eq message
  rw [chars]
  rfl

/-- The trailer is written with a reserve of its own. -/
theorem build_returns_iff (laid : b.Laid maxMessageSize) (tmp : Vector UInt8 6) :
    (∃ bytes b', (build tmp).run b = .ok bytes b' ∧ bytes.length ≤ maxMessageSize) ↔
      b.message.length + 14 ≤ maxMessageSize := by
  have size := length_backfill laid tmp
  have capacity : (backfillBodyLength tmp b).maxMessageSize = maxMessageSize := by
    unfold backfillBodyLength
    split <;> exact laid.1
  have fits : (backfillBodyLength tmp b).Fits checksumWidth ↔
      b.message.length + 14 ≤ maxMessageSize := by
    unfold Fits
    rw [size, capacity]
    rfl
  rw [build_eq]
  constructor
  · rintro ⟨bytes, b', built, -⟩
    split at built
    · exact fits.mp ‹_›
    · cases built
  · intro room
    rw [if_pos (fits.mpr room)]
    refine ⟨_, _, rfl, ?_⟩
    rw [List.length_append, size, length_checksumChars]
    omega

/-- The first `build` behind calls that all return does so just when the message has room
for the trailer twice. -/
theorem first_build_returns_iff (starts : Starts maxMessageSize start)
    {ts : List (Taken Builder BuilderOp)} (run : Run Returns start ts b) (tmp : Vector UInt8 6) :
    (∃ bytes b', (build tmp).run b = .ok bytes b' ∧ bytes.length ≤ maxMessageSize) ↔
      (ts.map Taken.label).foldl BuilderOp.lengthAfter start.message.length + 14 ≤
        maxMessageSize := by
  have laid : b.Laid maxMessageSize :=
    run.invariant (laid_start starts) fun _ _ _ before taken => laid_step before (.inl taken)
  rw [← length_run run]
  exact build_returns_iff laid tmp

theorem first_build_returns_one_field :
    ∃ bytes b', (build (.replicate 6 0)).run oneField = .ok bytes b' ∧ bytes.length ≤ 64 :=
  (first_build_returns_iff (.inr ⟨new 64, rfl, by rfl⟩)
    (.snoc (l := .addField .clOrdID (.text (ascii "A"))) .start (by rfl)) (.replicate 6 0)).mpr
    (by decide)

/-- With 31 bytes `reset` and one field return, and `build` throws. -/
theorem first_build_throws :
    ∃ ts, Starts 31 (headed 31) ∧
      Run Returns (headed 31) ts { oneField with maxMessageSize := 31 } ∧
      (build (.replicate 6 0)).run { oneField with maxMessageSize := 31 } =
        .error .lengthError { oneField with
          maxMessageSize := 31
          message := ascii "8=FIX.5.0" ++ [soh] ++ ascii "9=000005" ++ [soh] ++ ascii "11=A" ++
            [soh] } :=
  ⟨_, .inr ⟨new 31, rfl, by rfl⟩,
    .snoc (l := .addField .clOrdID (.text (ascii "A"))) .start (by rfl), by rfl⟩

end Builder

end FastLittleMarket.Fix
