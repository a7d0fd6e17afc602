import FastLittleMarket.Fix.Fresh

/-!
Appending one builder to another against adding the fields one by one.

`addField` counts the body from its start, `append` adds to the count it finds. They
agree on a builder whose count is up to date. What `append` copies is the whole source,
and the source it leaves begins with a header.
-/

namespace FastLittleMarket.Fix

open Call

theorem bodyOf_append (fs gs : List (FieldTag × FieldValue)) :
    bodyOf (fs ++ gs) = bodyOf fs ++ bodyOf gs := by
  simp [bodyOf, wireAll]

theorem bodyOf_cons (f : FieldTag × FieldValue) (fields : List (FieldTag × FieldValue)) :
    bodyOf (f :: fields) = encodeField f.1 f.2.bytes ++ bodyOf fields := rfl

namespace Builder

variable {b b' src src' dst dst' : Builder} {fields : List (FieldTag × FieldValue)}
  {maxMessageSize n : Nat}

theorem fits_account {k : Nat} : b.account.Fits k ↔ b.Fits k := by
  have capacity : b.account.maxMessageSize = b.maxMessageSize := by
    unfold account
    split <;> rfl
  unfold Fits
  rw [message_account, capacity]

theorem account_push_account (b : Builder) (xs ys : List UInt8) :
    ((b.push xs).account.push ys).account = (b.push (xs ++ ys)).account := by
  cases start : b.bodyStart <;> simp [account, push, start]

theorem addFields_ok_iff :
    (addFields fields).run b = .ok () b' ↔
      (fields = [] ∧ b' = b) ∨
        (fields ≠ [] ∧ b.Fits (bodyOf fields).length ∧
          b' = (b.push (bodyOf fields)).account) := by
  induction fields generalizing b with
  | nil =>
      constructor
      · intro ended
        cases ended
        exact .inl ⟨rfl, rfl⟩
      · rintro (⟨-, rfl⟩ | ⟨some_field, -⟩)
        · rfl
        · exact absurd rfl some_field
  | cons f fields ih =>
      rw [bodyOf_cons, List.length_append]
      by_cases fits : b.Fits (encodeField f.1 f.2.bytes).length
      · have first : (addField f.1 f.2).run b =
            .ok () (b.push (encodeField f.1 f.2.bytes)).account :=
          addField_ok_iff.mpr ⟨fits, rfl⟩
        rw [addFields, bind_ok first, ih, fits_account, fits_push, account_push_account]
        cases fields with
        | nil => simp [bodyOf, wireAll, fits]
        | cons g fields => simp
      · have refused : ∃ c, (addField f.1 f.2).run b = .error .lengthError c := by
          rw [addField_eq]
          exact addWith_error fits
        obtain ⟨c, refused⟩ := refused
        rw [addFields, bind_error refused]
        constructor
        · intro ended
          cases ended
        · rintro (⟨empty, -⟩ | ⟨-, whole, -⟩)
          · cases empty
          · exact absurd (whole.mono (by omega)) fits

def appended (b : Builder) (bytes : List UInt8) : Builder :=
  { b.push bytes with
    bodyLength := if b.bodyStart.isSome then b.bodyLength + bytes.length else b.bodyLength }

theorem append_ok_iff :
    (append src).run dst = .ok src' dst' ↔
      dst.Fits src.message.length ∧ 26 ≤ src.maxMessageSize ∧
        src' = headed src.maxMessageSize ∧ dst' = dst.appended src.message := by
  have copy := copyFields_eq src.message dst
  by_cases fits : dst.Fits src.message.length
  · rw [if_pos fits] at copy
    by_cases header : 26 ≤ src.maxMessageSize
    · have cleared : reset.run src = .ok () (headed src.maxMessageSize) := reset_ok header
      unfold append
      rw [bind_ok copy, cleared]
      constructor
      · intro ended
        cases ended
        exact ⟨fits, header, rfl, rfl⟩
      · rintro ⟨-, -, rfl, rfl⟩
        rfl
    · refine iff_of_false (fun ended => ?_) fun all => header all.2.1
      unfold append at ended
      rw [bind_ok copy] at ended
      cases cleared : reset.run src with
      | ok u d => exact header (room_of_reset cleared)
      | error e d =>
          rw [cleared] at ended
          cases ended
  · rw [if_neg fits] at copy
    refine iff_of_false (fun ended => ?_) fun all => fits all.1
    unfold append at ended
    rw [bind_error copy] at ended
    cases ended

/-- The count of the body is the one that `addField` would make. -/
def InStep (b : Builder) : Prop :=
  ∀ start, b.bodyStart = some start → b.bodyLength + start = b.message.length

/-- Copying fields does what writing them does just when the count is in step. -/
theorem appended_eq_account_iff {bytes : List UInt8} (some_byte : bytes ≠ []) :
    b.appended bytes = (b.push bytes).account ↔ b.InStep := by
  have size := List.length_pos_iff.mpr some_byte
  unfold InStep
  cases start : b.bodyStart with
  | none => simp [appended, account, push, start]
  | some start =>
      simp [appended, account, push, start]
      omega

theorem appended_nil (b : Builder) : b.appended [] = b := by simp [appended]

section Rounds

/-- Each round adds the fields to the source and appends it to the builder of the call. -/
def appendRounds (src : Builder) : List (List (FieldTag × FieldValue)) → Call Builder
  | [] => pure src
  | fields :: rounds =>
      match (addFields fields).run src with
      | .error e _ => throw e
      | .ok _ src => do
          let src ← append src
          appendRounds src rounds

def roundBytes (rest : List UInt8) : List (List (FieldTag × FieldValue)) → List UInt8
  | [] => []
  | fields :: rounds => rest ++ bodyOf fields ++ roundBytes (headed 0).message rounds

variable {rounds : List (List (FieldTag × FieldValue))}

theorem addFields_message (added : (addFields fields).run b = .ok () b') :
    b'.message = b.message ++ bodyOf fields ∧ b'.maxMessageSize = b.maxMessageSize := by
  rcases addFields_ok_iff.mp added with ⟨rfl, rfl⟩ | ⟨-, -, rfl⟩
  · exact ⟨(List.append_nil _).symm, rfl⟩
  · refine ⟨message_account _, ?_⟩
    unfold account
    split <;> rfl

theorem round_inv {c : Builder} (returns : (appendRounds src (fields :: rounds)).run dst =
      .ok src' dst') (added : (addFields fields).run src = .ok () c) :
    dst.Fits c.message.length ∧
      (appendRounds (headed src.maxMessageSize) rounds).run (dst.appended c.message) =
        .ok src' dst' := by
  simp only [appendRounds, added] at returns
  obtain ⟨_, d, appended, later⟩ := exists_of_bind_ok returns
  obtain ⟨fits, -, rfl, rfl⟩ := append_ok_iff.mp appended
  rw [(addFields_message added).2] at later
  exact ⟨fits, later⟩

theorem exists_added (returns : (appendRounds src (fields :: rounds)).run dst = .ok src' dst') :
    ∃ c, (addFields fields).run src = .ok () c := by
  cases added : (addFields fields).run src with
  | ok u c => exact ⟨c, rfl⟩
  | error e c =>
      simp only [appendRounds, added] at returns
      cases returns

theorem appendRounds_message (returns : (appendRounds src rounds).run dst = .ok src' dst') :
    dst'.message = dst.message ++ roundBytes src.message rounds := by
  induction rounds generalizing src dst with
  | nil =>
      cases returns
      exact (List.append_nil _).symm
  | cons fields rounds ih =>
      obtain ⟨c, added⟩ := exists_added returns
      rw [ih (round_inv returns added).2]
      change dst.message ++ c.message ++ _ = dst.message ++ (_ ++ _)
      rw [(addFields_message added).1, List.append_assoc]
      rfl

theorem length_roundBytes (rest : List UInt8) (fields : List (FieldTag × FieldValue))
    (rounds : List (List (FieldTag × FieldValue))) :
    (roundBytes rest (fields :: rounds)).length =
      rest.length + (bodyOf (fields :: rounds).flatten).length + 19 * rounds.length := by
  induction rounds generalizing rest fields with
  | nil => simp [roundBytes]
  | cons later rounds ih =>
      have parts : bodyOf (fields :: later :: rounds).flatten =
          bodyOf fields ++ bodyOf (later :: rounds).flatten := bodyOf_append _ _
      rw [roundBytes, List.length_append, ih, length_headed, parts]
      simp only [List.length_append, List.length_cons]
      omega

/-- Rounds of one constructed source append just the fields, and leave what adding the
fields would leave, exactly when there is at most one, and it adds nothing or finds the
count of the body in step. -/
theorem append_rounds_iff (returns : (appendRounds (new n) rounds).run dst = .ok src' dst') :
    (dst'.message = dst.message ++ bodyOf rounds.flatten ∧
        (addFields rounds.flatten).run dst = .ok () dst') ↔
      rounds.length ≤ 1 ∧ (rounds.flatten = [] ∨ dst.InStep) := by
  have message := appendRounds_message returns
  cases rounds with
  | nil =>
      cases returns
      simp [bodyOf, wireAll, addFields_ok_iff]
  | cons fields rounds =>
      cases rounds with
      | cons later rounds =>
          refine iff_of_false (fun both => ?_) fun both => ?_
          · have same := List.append_cancel_left (message.symm.trans both.1)
            have size := length_roundBytes [] fields (later :: rounds)
            have none_left : (new n).message = [] := rfl
            rw [none_left] at same
            rw [same, List.length_nil, List.length_cons] at size
            omega
          · have many := both.1
            simp only [List.length_cons] at many
            omega
      | nil =>
          obtain ⟨c, added⟩ := exists_added returns
          obtain ⟨fits, ended⟩ := round_inv returns added
          cases ended
          have copied : c.message = bodyOf fields := (addFields_message added).1
          rw [copied] at fits ⊢
          have flat : [fields].flatten = fields := List.append_nil fields
          simp only [flat, List.length_singleton, Nat.le_refl, true_and]
          have wrote : (dst.appended (bodyOf fields)).message = dst.message ++ bodyOf fields := rfl
          rw [addFields_ok_iff, and_iff_right wrote]
          by_cases empty : fields = []
          · subst empty
            have nothing : bodyOf [] = [] := rfl
            simp [nothing, appended_nil]
          · have some_byte : bodyOf fields ≠ [] := by
              obtain ⟨f, gs, rfl⟩ := List.exists_cons_of_ne_nil empty
              simp [bodyOf_cons, encodeField]
            simp [empty, fits, appended_eq_account_iff some_byte]

theorem append_rounds_one_round :
    ∃ src' dst', (appendRounds (new 64) [[(.clOrdID, .text (ascii "A")),
        (.orderQty, .int64 5)]]).run (headed 128) = .ok src' dst' ∧
      (addFields [(.clOrdID, .text (ascii "A")), (.orderQty, .int64 5)]).run (headed 128) =
        .ok () dst' := by
  obtain ⟨src', dst', returns⟩ : ∃ src' dst', (appendRounds (new 64)
      [[(.clOrdID, .text (ascii "A")), (.orderQty, .int64 5)]]).run (headed 128) =
        .ok src' dst' := ⟨_, _, rfl⟩
  refine ⟨src', dst', returns, ((append_rounds_iff returns).mpr ⟨by decide, .inr ?_⟩).2⟩
  intro start same
  cases same
  rfl

/-- Two rounds of one field each: a second header stands between the fields. -/
theorem second_round_appends_header :
    ∃ src' dst', (appendRounds (new 64) [[(.clOrdID, .text (ascii "A"))],
        [(.clOrdID, .text (ascii "B"))]]).run (new 128) = .ok src' dst' ∧
      dst'.message = ascii "11=A" ++ [soh] ++ ascii "8=FIX.5.0" ++ [soh] ++ ascii "9=000000" ++
        [soh] ++ ascii "11=B" ++ [soh] ∧
      bodyOf [(.clOrdID, .text (ascii "A")), (.clOrdID, .text (ascii "B"))] =
        ascii "11=A" ++ [soh] ++ ascii "11=B" ++ [soh] :=
  ⟨_, _, rfl, by decide, by decide⟩

end Rounds

section BodyLength

/-- `fields` are what a mix of `addField` and `append` has added to a builder, the
sources being constructed and filled in the same way. -/
inductive Adds : Builder → List (FieldTag × FieldValue) → Builder → Prop
  | start {b : Builder} : Adds b [] b
  | field {b c d : Builder} {fields : List (FieldTag × FieldValue)} {f : FieldTag × FieldValue}
      (before : Adds b fields c) (added : (addField f.1 f.2).run c = .ok () d) :
      Adds b (fields ++ [f]) d
  | append {b c d src src' : Builder} {fields gs : List (FieldTag × FieldValue)}
      {maxMessageSize : Nat} (before : Adds b fields c) (source : Adds (new maxMessageSize) gs src)
      (appended : (append src).run c = .ok src' d) : Adds b (fields ++ gs) d

theorem appended_bare (n : Nat) (body bytes : List UInt8) :
    (bare n body).appended bytes = bare n (body ++ bytes) := by
  simp [appended, bare, push, new]

theorem appended_progress (n : Nat) (body bytes : List UInt8) :
    (progress n body).appended bytes = progress n (body ++ bytes) := by
  simp [appended, progress, push]

theorem account_progress (n : Nat) (body bytes : List UInt8) :
    ((progress n body).push bytes).account = progress n (body ++ bytes) := by
  have size : ((headed n).message ++ (body ++ bytes)).length - 19 = (body ++ bytes).length := by
    rw [List.length_append, length_headed]
    exact Nat.add_sub_cancel_left _ _
  simp only [account, push, progress, List.append_assoc, size]

theorem bodyOf_singleton (f : FieldTag × FieldValue) :
    bodyOf [f] = encodeField f.1 f.2.bytes := List.append_nil _

theorem Adds.source (h : Adds b fields b') :
    ∀ n, b = new n → b' = bare n (bodyOf fields) := by
  induction h with
  | start => exact fun n constructed => constructed
  | field before added ih =>
      intro n constructed
      rw [ih n constructed] at added
      rw [(addField_ok_iff.mp added).2, bodyOf_append, bodyOf_singleton]
      exact push_push (new n) _ _
  | @append b c d src src' fields gs m before source appended ih ihSource =>
      intro n constructed
      have copied : src.message = bodyOf gs := by
        rw [ihSource m rfl]
        rfl
      obtain ⟨-, -, -, behind⟩ := append_ok_iff.mp appended
      rw [behind, ih n constructed, copied, appended_bare, bodyOf_append]

/-- Behind `reset`, the fields stand behind the header and the count is their length. -/
theorem Adds.progress (h : Adds b fields b') :
    ∀ n, b = headed n → b' = progress n (bodyOf fields) := by
  induction h with
  | start =>
      intro n cleared
      exact cleared.trans (progress_nil n).symm
  | field before added ih =>
      intro n cleared
      rw [ih n cleared] at added
      rw [(addField_ok_iff.mp added).2, account_progress, bodyOf_append, bodyOf_singleton]
  | @append b c d src src' fields gs m before source appended ih _ =>
      intro n cleared
      have copied : src.message = bodyOf gs := by
        rw [source.source m rfl]
        rfl
      obtain ⟨-, -, -, behind⟩ := append_ok_iff.mp appended
      rw [behind, ih n cleared, copied, appended_progress, bodyOf_append]

/-- The finished message of the standard: the digits of BodyLength are six and their
number is the length of the body. -/
def Counted (body bytes : List UInt8) : Prop :=
  ∃ ddd rest : List UInt8, ddd.length = 6 ∧ (∀ c ∈ ddd, IsDigit c) ∧
    bytes = ascii "8=FIX.5.0" ++ soh ::
      (ascii "9=" ++ ddd ++ soh :: (body ++ ascii "10=" ++ rest)) ∧
    decimalFrom 0 ddd = body.length

theorem counted_iff (tmp : Vector UInt8 6) (fields : List (FieldTag × FieldValue)) :
    Counted (bodyOf fields) (framed tmp fields).cut ↔ (bodyOf fields).length < 10 ^ 6 := by
  constructor
  · rintro ⟨ddd, rest, size, digits, -, number⟩
    have small := decimalFrom_lt digits 0
    rw [size, number] at small
    simpa using small
  · intro short
    obtain ⟨rest, trailer⟩ : ∃ rest, checksumChars (written tmp fields) = ascii "10=" ++ rest := by
      obtain ⟨d₁, d₂, d₃, -, -, -, -, chars⟩ := checksumChars_eq (written tmp fields)
      exact ⟨_, chars⟩
    refine ⟨lengthDigits tmp (bodyOf fields).length, rest, length_lengthDigits tmp _,
      lengthDigits_isDigit short tmp, ?_, decimalFrom_lengthDigits short tmp⟩
    rw [cut_framed, trailer, written, beginString]
    simp

/-- For every capacity and every mix of `addField` and `append` calls behind `reset` that
all return, a `build` that returns counts the body right exactly when it has less than a
million bytes. -/
theorem bodyLength_right_iff {start c : Builder} {tmp : Vector UInt8 6} {bytes : List UInt8}
    (cleared : reset.run start = .ok () b) (added : Adds b fields c)
    (built : (build tmp).run c = .ok bytes b') :
    Counted (bodyOf fields) bytes ↔ (bodyOf fields).length < 10 ^ 6 := by
  rw [reset_ok (room_of_reset cleared)] at cleared
  cases cleared
  rw [added.progress _ rfl] at built
  rw [((build_progress tmp _ fields).2 bytes b' built).2]
  exact counted_iff tmp fields

theorem bodyLength_right_one_append :
    ∃ b c bytes b', reset.run (new 64) = .ok () b ∧
      Adds b [(.clOrdID, .text (ascii "A")), (.orderQty, .int64 5)] c ∧
      (build (.replicate 6 0)).run c = .ok bytes b' ∧
      Counted (ascii "11=A" ++ [soh] ++ ascii "38=5" ++ [soh]) bytes := by
  have source : Adds (new 64) [(.orderQty, .int64 5)] _ := .field .start rfl
  have cleared : reset.run (new 64) = .ok () (headed 64) := rfl
  have added : Adds (headed 64) [(.clOrdID, .text (ascii "A")), (.orderQty, .int64 5)] _ :=
    .append (.field .start rfl) source (show (append _).run _ = .ok (headed 64) _ from rfl)
  exact ⟨_, _, _, _, cleared, added, rfl,
    (bodyLength_right_iff cleared added rfl).mpr (by decide)⟩

/-- A field of a million characters: the seven digits of its length do not fit. -/
theorem bodyLength_wrong_million :
    ∃ b fields c bytes b', reset.run (new 2000000) = .ok () b ∧ Adds b fields c ∧
      (build (.replicate 6 0)).run c = .ok bytes b' ∧ ¬ Counted (bodyOf fields) bytes := by
  let f : FieldTag × FieldValue := (.clOrdID, .text (List.replicate 1000000 65))
  have size : (encodeField f.1 f.2.bytes).length = 1000004 := by
    rw [length_encodeField]
    change (ftof .clOrdID).length + (List.replicate 1000000 (65 : UInt8)).length + 2 = _
    rw [List.length_replicate]
    rfl
  have body : (bodyOf [f]).length = 1000004 := by
    rw [bodyOf_singleton, size]
  have fits : (headed 2000000).Fits (encodeField f.1 f.2.bytes).length := by
    rw [size]
    decide
  have added : Adds (headed 2000000) [f] _ := .field .start (addField_ok_iff.mpr ⟨fits, rfl⟩)
  obtain ⟨b', built⟩ := (build_progress (.replicate 6 0) 2000000 [f]).1 (by
    rw [encodedSize, body]
    decide)
  rw [← added.progress _ rfl] at built
  refine ⟨_, [f], _, _, b', reset_ok (by decide), added, built, ?_⟩
  rw [counted_iff, body]
  decide

end BodyLength

end Builder

end FastLittleMarket.Fix
