import FastLittleMarket.Library.Run
import FastLittleMarket.Fix.Build

/-!
The trailer of a finished message. The three digits are stored one place too far to
the right in their template: a fourth digit, always zero, stands in front of them and
the delimiter is overwritten.
-/

namespace FastLittleMarket.Fix

open Call

/-- A call between construction or `reset` and `build`. -/
inductive BuilderOp where
  | addField (tag : FieldTag) (value : FieldValue)
  | addTime (tag : FieldTag) (gmt : Tm) (usec : Int)
  | append (src : Builder)
  | appendSelf

def BuilderOp.call : BuilderOp → Builder.Call Unit
  | addField tag value => Builder.addField tag value
  | addTime tag gmt usec => Builder.addTime tag gmt usec
  | append src => discard (Builder.append src)
  | appendSelf => Builder.appendSelf

namespace Builder

/-- A call that returns, or throws an exception that its caller catches. -/
def Steps (b : Builder) (op : BuilderOp) (b' : Builder) : Prop :=
  op.call.run b = .ok () b' ∨ op.call.run b = .error .lengthError b'

def Starts (maxMessageSize : Nat) (b : Builder) : Prop :=
  b = new maxMessageSize ∨
    ∃ c, c.maxMessageSize = maxMessageSize ∧ reset.run c = .ok () b

def Reached (maxMessageSize : Nat) (b : Builder) : Prop :=
  ∃ start ts, Starts maxMessageSize start ∧ Run Steps start ts b

section Layout

/-- What calls do that write at the end of the message only. -/
structure Extends (b b' : Builder) : Prop where
  capacity : b'.maxMessageSize = b.maxMessageSize
  dst : b'.bodyLenDst = b.bodyLenDst
  message : b.message <+: b'.message

theorem Extends.refl (b : Builder) : Extends b b := ⟨rfl, rfl, List.prefix_rfl⟩

theorem Extends.trans {b b' b'' : Builder} (h : Extends b b') (h' : Extends b' b'') :
    Extends b b'' :=
  ⟨h'.capacity.trans h.capacity, h'.dst.trans h.dst, h.message.trans h'.message⟩

theorem Extends.push (b : Builder) (sv : List UInt8) : Extends b (b.push sv) :=
  ⟨rfl, rfl, List.prefix_append _ _⟩

theorem checkCapacity_extends (n : Nat) : Keeps Extends (checkCapacity n) := by
  intro b
  by_cases h : b.Fits n
  · rw [checkCapacity_ok h]
    exact .refl b
  · rw [checkCapacity_error h]
    exact .refl b

theorem write_extends (sv : List UInt8) : Keeps Extends (write sv) :=
  (checkCapacity_extends _).bind Extends.trans fun _ => .modify fun b => .push b sv

theorem accountBody_extends : Keeps Extends accountBody := by
  apply Keeps.modify
  intro b
  split
  · exact .refl b
  · exact ⟨rfl, rfl, List.prefix_rfl⟩

theorem addWith_extends (tag : FieldTag) {value : Call Unit} (h : Keeps Extends value) :
    Keeps Extends (addWith tag value) := by
  have tag_ : Keeps Extends (writeTag tag) :=
    (write_extends _).bind Extends.trans fun _ => write_extends [equals]
  refine tag_.bind Extends.trans fun _ => h.bind Extends.trans fun _ => ?_
  exact (write_extends [soh]).bind Extends.trans fun _ => accountBody_extends

/-- All fields are copied at once, or none. -/
theorem copyFields_eq (fields : List UInt8) (b : Builder) :
    (copyFields fields).run b =
      if b.Fits fields.length then
        .ok () { b.push fields with
          bodyLength := if b.bodyStart.isSome then b.bodyLength + fields.length
            else b.bodyLength }
      else .error .lengthError b := by
  unfold copyFields
  split
  · exact bind_ok (checkCapacity_ok ‹_›)
  · exact bind_error (checkCapacity_error ‹_›)

theorem copyFields_extends (fields : List UInt8) : Keeps Extends (copyFields fields) :=
  (checkCapacity_extends _).bind Extends.trans fun _ =>
    .modify fun _ => ⟨rfl, rfl, List.prefix_append _ _⟩

/-- The digits of BodyLength, where there are any, lie within the message. -/
def Laid (maxMessageSize : Nat) (b : Builder) : Prop :=
  b.maxMessageSize = maxMessageSize ∧
    ∀ dst, b.bodyLenDst = some dst → dst + bodyLenWidth ≤ b.message.length

variable {b b' : Builder} {n : Nat}

theorem Laid.extends (h : b.Laid n) (more : Extends b b') : b'.Laid n := by
  refine ⟨more.capacity.trans h.1, fun dst hdst => ?_⟩
  rw [more.dst] at hdst
  exact Nat.le_trans (h.2 dst hdst) more.message.length_le

theorem laid_headed (n : Nat) : (headed n).Laid n := by
  refine ⟨rfl, fun dst hdst => ?_⟩
  obtain rfl := Option.some.inj hdst
  exact (by decide : 18 ≤ 19)

theorem laid_of_reset (h : reset.run b = .ok () b') : b'.Laid b.maxMessageSize := by
  rw [reset_ok (room_of_reset h)] at h
  cases h
  exact laid_headed _

theorem laid_start (h : Starts n b) : b.Laid n := by
  rcases h with rfl | ⟨c, rfl, h⟩
  · exact ⟨rfl, fun dst hdst => nomatch hdst⟩
  · exact laid_of_reset h

theorem append_extends (src : Builder) : Keeps Extends (append src) := by
  refine (copyFields_extends _).bind Extends.trans fun _ b => ?_
  split <;> exact .refl b

theorem laid_step {op : BuilderOp} (h : b.Laid n) (taken : Steps b op b') : b'.Laid n := by
  have kept : ∀ call : Call Unit, Keeps Extends call →
      (call.run b = .ok () b' ∨ call.run b = .error .lengthError b') → b'.Laid n := by
    intro call keeps ends
    rcases ends with done | failed
    · exact h.extends (keeps.ok done)
    · exact h.extends (keeps.error failed)
  cases op with
  | addField tag value =>
      refine kept (addField tag value) ?_ taken
      rw [addField_eq]
      exact addWith_extends _ (write_extends _)
  | addTime tag gmt usec => exact kept _ (addWith_extends _ (write_extends _)) taken
  | append src =>
      refine kept _ ?_ taken
      exact (append_extends src).bind Extends.trans fun _ b => .refl b
  | appendSelf =>
      have copied := copyFields_extends b.message
      rcases taken with done | failed
      · obtain ⟨_, c, copy, cleared⟩ := exists_of_bind_ok (x := copyFields b.message) done
        have laid := laid_of_reset cleared
        rwa [(copied.ok copy).capacity, h.1] at laid
      · change (copyFields b.message >>= fun _ => reset).run b = _ at failed
        cases copy : (copyFields b.message).run b with
        | ok u c =>
            rw [bind_ok copy] at failed
            exact nomatch noexcept_error failed
        | error e c =>
            rw [bind_error copy] at failed
            cases failed
            exact h.extends (copied.error copy)

/-- Every builder a run reaches has its BodyLength digits within the message. -/
theorem Reached.laid (h : Reached n b) : b.Laid n := by
  obtain ⟨start, ts, starts, run⟩ := h
  exact run.invariant (laid_start starts) fun _ _ _ => laid_step

end Layout

section Trailer

theorem toNat_foldl_byteSum (bytes : List UInt8) (start : UInt32) :
    (bytes.foldl (fun sum c => sum + c.toUInt32) start).toNat =
      (start.toNat + (bytes.map UInt8.toNat).sum) % 2 ^ 32 := by
  induction bytes generalizing start with
  | nil =>
      have small := start.toNat_lt
      simp only [List.foldl_nil, List.map_nil, List.sum_nil, Nat.add_zero]
      omega
  | cons c bytes ih =>
      rw [List.foldl_cons, ih, UInt32.toNat_add, List.map_cons, List.sum_cons,
        UInt8.toNat_toUInt32]
      omega

theorem toNat_byteSum (bytes : List UInt8) :
    (byteSum bytes % 256).toNat = (bytes.map UInt8.toNat).sum % 256 := by
  rw [UInt32.toNat_mod, byteSum, toNat_foldl_byteSum]
  change (0 + (bytes.map UInt8.toNat).sum) % 2 ^ 32 % 256 = _
  omega

theorem digit_toUInt8 {v : UInt32} {d : Nat} (h : v.toNat = d) (small : d < 10) :
    48 + v.toUInt8 = UInt8.ofNat (48 + d) := by
  apply UInt8.toNat_inj.mp
  rw [toNat_digit small, UInt8.toNat_add, UInt32.toNat_toUInt8, h]
  change (48 + d % 256) % 256 = 48 + d
  omega

/-- Where the digits come to stand: behind a zero, with no delimiter after them. -/
theorem checksumChars_eq (message : List UInt8) :
    ∃ d₁ d₂ d₃, d₁ < 10 ∧ d₂ < 10 ∧ d₃ < 10 ∧
      (d₁ * 10 + d₂) * 10 + d₃ = (message.map UInt8.toNat).sum % 256 ∧
      checksumChars message = ascii "10=0" ++
        [UInt8.ofNat (48 + d₁), UInt8.ofNat (48 + d₂), UInt8.ofNat (48 + d₃)] := by
  let n := (message.map UInt8.toNat).sum % 256
  let sum := byteSum message % 256
  have value : sum.toNat = n := toNat_byteSum message
  have small : n < 256 := Nat.mod_lt _ (by decide)
  have ten : (10 : UInt32).toNat = 10 := rfl
  have first : (sum / 10 / 10 % 10).toNat = n / 10 / 10 % 10 := by
    rw [UInt32.toNat_mod, UInt32.toNat_div, UInt32.toNat_div, value, ten]
  have second : (sum / 10 % 10).toNat = n / 10 % 10 := by
    rw [UInt32.toNat_mod, UInt32.toNat_div, value, ten]
  have third : (sum % 10).toNat = n % 10 := by rw [UInt32.toNat_mod, value, ten]
  refine ⟨n / 10 / 10 % 10, n / 10 % 10, n % 10, by omega, by omega, by omega, by omega, ?_⟩
  have chars : checksumChars message = ascii "10=0" ++
      [48 + (sum / 10 / 10 % 10).toUInt8, 48 + (sum / 10 % 10).toUInt8,
        48 + (sum % 10).toUInt8] := rfl
  rw [chars, digit_toUInt8 first (by omega), digit_toUInt8 second (by omega),
    digit_toUInt8 third (by omega)]

/-- The trailer of the standard, behind what has been written. -/
def Trailer (written bytes : List UInt8) : Prop :=
  ∃ ddd : List UInt8, ddd.length = 3 ∧ (∀ c ∈ ddd, IsDigit c) ∧
    bytes = written ++ (ascii "10=" ++ ddd ++ [soh]) ∧
    decimalFrom 0 ddd = (written.map UInt8.toNat).sum % 256

theorem length_overwrite {message xs : List UInt8} {dst : Nat}
    (fits : dst + xs.length ≤ message.length) :
    (overwrite message dst xs).length = message.length := by
  simp only [overwrite, List.length_append, List.length_take, List.length_drop]
  omega

theorem length_lengthChars (tmp : Vector UInt8 6) (n : Nat) :
    (lengthChars tmp n).length ≤ bodyLenWidth := by
  unfold lengthChars
  split
  · assumption
  · rw [Vector.length_toList]
    exact Nat.le_refl _

/-- Back-filling BodyLength replaces its digits in place. -/
theorem length_backfill {n : Nat} {b : Builder} (h : b.Laid n) (tmp : Vector UInt8 6) :
    (backfillBodyLength tmp b).message.length = b.message.length := by
  have chars := length_lengthChars tmp b.bodyLength
  unfold backfillBodyLength
  split
  · rfl
  · rename_i dst hdst
    have fits := h.2 dst hdst
    apply length_overwrite
    rw [List.length_append, List.length_replicate]
    omega

variable {maxMessageSize : Nat} {b b' : Builder} {tmp : Vector UInt8 6} {bytes : List UInt8}

theorem build_inv (h : (build tmp).run b = .ok bytes b') :
    bytes = (backfillBodyLength tmp b).message ++
      checksumChars (backfillBodyLength tmp b).message := by
  rw [build_eq] at h
  split at h
  · cases h
    rfl
  · cases h

/-- The last byte of a finished message is a digit. -/
theorem not_trailer (h : (build tmp).run b = .ok bytes b') :
    ¬ Trailer (backfillBodyLength tmp b).message bytes := by
  rintro ⟨ddd, -, -, same, -⟩
  obtain ⟨d₁, d₂, d₃, -, -, last, -, chars⟩ :=
    checksumChars_eq (backfillBodyLength tmp b).message
  rw [build_inv h, chars] at same
  have tails := List.append_cancel_left same
  have ends : UInt8.ofNat (48 + d₃) = soh := by
    have final := congrArg List.getLast? tails
    simpa using final
  have digit := isDigit_digit last
  rw [ends] at digit
  exact absurd digit (by decide)

/-- No builder finishes a message with the trailer of the standard: the three digits
of the sum stand behind `10=0`, and nothing behind them. -/
theorem build_never_trailer (reached : Reached maxMessageSize b)
    (built : (build tmp).run b = .ok bytes b') :
    (backfillBodyLength tmp b).message.length = b.message.length ∧
      (∃ ddd : List UInt8, ddd.length = 3 ∧ (∀ c ∈ ddd, IsDigit c) ∧
        bytes = (backfillBodyLength tmp b).message ++ (ascii "10=0" ++ ddd) ∧
        decimalFrom 0 ddd =
          ((backfillBodyLength tmp b).message.map UInt8.toNat).sum % 256) ∧
      ¬ Trailer (backfillBodyLength tmp b).message bytes := by
  refine ⟨length_backfill reached.laid tmp, ?_, not_trailer built⟩
  obtain ⟨d₁, d₂, d₃, small₁, small₂, small₃, sum, chars⟩ :=
    checksumChars_eq (backfillBodyLength tmp b).message
  refine ⟨[UInt8.ofNat (48 + d₁), UInt8.ofNat (48 + d₂), UInt8.ofNat (48 + d₃)], rfl, ?_, ?_, ?_⟩
  · simp only [List.mem_cons, List.not_mem_nil, or_false, forall_eq_or_imp, forall_eq]
    exact ⟨isDigit_digit small₁, isDigit_digit small₂, isDigit_digit small₃⟩
  · rw [build_inv built, chars]
  · rw [← sum]
    simp only [decimalFrom, List.foldl_cons, List.foldl_nil, toNat_digit small₁,
      toNat_digit small₂, toNat_digit small₃]
    omega

/-- A builder behind `reset` and one field. -/
def oneField : Builder where
  maxMessageSize := 64
  message := ascii "8=FIX.5.0" ++ [soh] ++ ascii "9=000000" ++ [soh] ++ ascii "11=A" ++ [soh]
  bodyStart := some 19
  bodyLenDst := some 12
  bodyLength := 5

theorem oneField_reached : Reached 64 oneField := by
  refine ⟨headed 64, _, .inr ⟨new 64, rfl, by rfl⟩,
    .snoc (l := .addField .clOrdID (.text (ascii "A"))) .start (.inl ?_)⟩
  rfl

/-- The message built from it, whose bytes sum to 155 modulo 256. -/
def oneFieldMessage : List UInt8 :=
  ascii "8=FIX.5.0" ++ [soh] ++ ascii "9=000005" ++ [soh] ++ ascii "11=A" ++ [soh] ++
    ascii "10=0155"

theorem oneField_built : (build (.replicate 6 0)).run oneField =
    .ok oneFieldMessage { oneField with message := oneFieldMessage } := by
  rfl

theorem build_never_trailer_one_field :
    (∃ ddd : List UInt8, ddd.length = 3 ∧ (∀ c ∈ ddd, IsDigit c) ∧
      oneFieldMessage =
        (backfillBodyLength (.replicate 6 0) oneField).message ++ (ascii "10=0" ++ ddd) ∧
      decimalFrom 0 ddd =
        ((backfillBodyLength (.replicate 6 0) oneField).message.map UInt8.toNat).sum % 256) ∧
    ¬ Trailer (backfillBodyLength (.replicate 6 0) oneField).message oneFieldMessage :=
  (build_never_trailer oneField_reached oneField_built).2

/-- `reset`, `addField(ClOrdID, "A")` and `build` end in `10=0155`. -/
theorem built_without_delimiter :
    Reached 64 oneField ∧
      (build (.replicate 6 0)).run oneField =
        .ok oneFieldMessage { oneField with message := oneFieldMessage } ∧
      ¬ Trailer (backfillBodyLength (.replicate 6 0) oneField).message oneFieldMessage :=
  ⟨oneField_reached, oneField_built, not_trailer oneField_built⟩

end Trailer

end Builder

end FastLittleMarket.Fix
