import FastLittleMarket.Library.Numerals
import FastLittleMarket.Fix.Append
import FastLittleMarket.Fix.RoundTrip

/-!
Fields with a time. What `addTime` writes is a text of 21 characters, and the texts are
ordered as the times are, up to the millisecond, also when they are read back from
messages. Times are as `gmtime_r` and `gettimeofday` document them, in years of at most
four digits.
-/

namespace FastLittleMarket.Fix

open Builder

/-- The broken-down time and the microseconds are in their documented ranges. -/
structure Tm.Calendar (gmt : Tm) (usec : Int) : Prop where
  year : -1900 ≤ gmt.year ∧ gmt.year < 8100
  mon : 0 ≤ gmt.mon ∧ gmt.mon < 12
  mday : 1 ≤ gmt.mday ∧ gmt.mday ≤ 31
  hour : 0 ≤ gmt.hour ∧ gmt.hour < 24
  min : 0 ≤ gmt.min ∧ gmt.min < 60
  sec : 0 ≤ gmt.sec ∧ gmt.sec ≤ 60
  usec : 0 ≤ usec ∧ usec < 1000000

/-- The text that `writeTime` writes. -/
def timeText (gmt : Tm) (usec : Int) : List UInt8 :=
  w4 (gmt.year + 1900) ++ w2 (gmt.mon + 1) ++ w2 gmt.mday ++ ascii "-" ++ w2 gmt.hour ++
    ascii ":" ++ w2 gmt.min ++ ascii ":" ++ w2 gmt.sec ++ ascii "." ++ w3 (usec.tdiv 1000)

/-- The time to the millisecond, its largest unit first. -/
def moment (gmt : Tm) (usec : Int) : List Int :=
  [gmt.year, gmt.mon, gmt.mday, gmt.hour, gmt.min, gmt.sec, usec / 1000]

theorem addTime_eq (tag : FieldTag) (gmt : Tm) (usec : Int) :
    addTime tag gmt usec = addField tag (.text (timeText gmt usec)) := rfl

section Digits

def digitByte (d : Nat) : UInt8 := UInt8.ofNat (48 + d)

theorem digitOf_cast : ∀ d < 10, digitOf (d : Nat) = digitByte d := by decide

theorem digitByte_mono : ∀ d < 10, ∀ e < 10, (digitByte d < digitByte e ↔ d < e) := by decide

theorem numeral_digits (n : Nat) : Numeral {v | v < 10 ^ n} n (word 10 digitByte n) :=
  numeral_word (by decide : 0 < 10) digitByte_mono n

theorem w2_cast {v : Nat} (small : v < 10 ^ 2) : w2 v = word 10 digitByte 2 v := by
  have tens : ((v : Int).tdiv 10) = ((v / 10 : Nat) : Int) := rfl
  have ones : ((v : Int).tmod 10) = ((v % 10 : Nat) : Int) := rfl
  rw [w2, tens, ones, digitOf_cast _ (by omega), digitOf_cast _ (by omega)]
  simp [word]

theorem w3_cast {v : Nat} (small : v < 10 ^ 3) : w3 v = word 10 digitByte 3 v := by
  have hundreds : ((v : Int).tdiv 100) = ((v / 100 : Nat) : Int) := rfl
  have tens : ((v : Int).tdiv 10).tmod 10 = ((v / 10 % 10 : Nat) : Int) := rfl
  have ones : ((v : Int).tmod 10) = ((v % 10 : Nat) : Int) := rfl
  rw [w3, hundreds, tens, ones, digitOf_cast _ (by omega), digitOf_cast _ (by omega),
    digitOf_cast _ (by omega)]
  have middle : v / 10 % 10 = v % 100 / 10 := by omega
  simp [word, middle]

theorem w4_cast {v : Nat} (small : v < 10 ^ 4) : w4 v = word 10 digitByte 4 v := by
  have thousands : ((v : Int).tdiv 1000) = ((v / 1000 : Nat) : Int) := rfl
  have hundreds : ((v : Int).tdiv 100).tmod 10 = ((v / 100 % 10 : Nat) : Int) := rfl
  have tens : ((v : Int).tdiv 10).tmod 10 = ((v / 10 % 10 : Nat) : Int) := rfl
  have ones : ((v : Int).tmod 10) = ((v % 10 : Nat) : Int) := rfl
  rw [w4, thousands, hundreds, tens, ones, digitOf_cast _ (by omega), digitOf_cast _ (by omega),
    digitOf_cast _ (by omega), digitOf_cast _ (by omega)]
  have second : v / 100 % 10 = v % 1000 / 100 := by omega
  have third : v / 10 % 10 = v % 100 / 10 := by omega
  simp [word, second, third]

/-- The numbers that fit `n` digits. -/
def Digits (n : Nat) : Set Int := {v | 0 ≤ v ∧ v < (10 ^ n : Nat)}

theorem exists_cast {n : Nat} {v : Int} (hv : v ∈ Digits n) :
    ∃ k : Nat, v = k ∧ k < 10 ^ n := by
  obtain ⟨positive, range⟩ := hv
  have whole : (v.toNat : Int) = v := Int.toNat_of_nonneg positive
  exact ⟨v.toNat, whole.symm, by omega⟩

section Cast

variable {n : Nat} {code : Int → List UInt8}
  (cast : ∀ v : Nat, v < 10 ^ n → code v = word 10 digitByte n v)
include cast

/-- A code for the numbers of `n` digits. -/
theorem numeral_of_cast : Numeral (Digits n) n code := by
  have small : ∀ v ∈ Digits n, v.toNat < 10 ^ n := by
    intro v hv
    obtain ⟨k, rfl, small⟩ := exists_cast hv
    exact small
  have decimal : Numeral (Digits n) n (word 10 digitByte n ∘ Int.toNat) := by
    refine (numeral_digits n).comp small fun v hv w hw => ?_
    have first := hv.1
    have second := hw.1
    omega
  refine decimal.congr fun v hv => ?_
  obtain ⟨k, rfl, small⟩ := exists_cast hv
  exact cast k small

theorem isDigit_of_cast {v : Int} (hv : v ∈ Digits n) : ∀ c ∈ code v, IsDigit c := by
  intro c hc
  obtain ⟨k, rfl, small⟩ := exists_cast hv
  rw [cast k small] at hc
  obtain ⟨d, below, rfl⟩ := exists_digit_of_mem small hc
  exact isDigit_digit below

end Cast

theorem numeral_w2 : Numeral (Digits 2) 2 w2 := numeral_of_cast fun _ => w2_cast

theorem numeral_w3 : Numeral (Digits 3) 3 w3 := numeral_of_cast fun _ => w3_cast

theorem numeral_w4 : Numeral (Digits 4) 4 w4 := numeral_of_cast fun _ => w4_cast

end Digits

section Order

variable {gmt gmt' : Tm} {usec usec' : Int}

theorem timeText_eq (gmt : Tm) (usec : Int) :
    timeText gmt usec = w4 (gmt.year + 1900) ++ (w2 (gmt.mon + 1) ++ (w2 gmt.mday ++ (ascii "-" ++
      (w2 gmt.hour ++ (ascii ":" ++ (w2 gmt.min ++ (ascii ":" ++ (w2 gmt.sec ++ (ascii "." ++
        w3 (usec.tdiv 1000)))))))))) := by
  simp only [timeText, List.append_assoc]

theorem digits_two {v : Int} (range : 0 ≤ v ∧ v < 100) : v ∈ Digits 2 := range

namespace Tm.Calendar

variable (h : gmt.Calendar usec) (h' : gmt'.Calendar usec')
include h

theorem year_digits : gmt.year + 1900 ∈ Digits 4 := by
  have range := h.year
  exact (⟨by omega, by omega⟩ : 0 ≤ gmt.year + 1900 ∧ gmt.year + 1900 < 10000)

theorem mon_digits : gmt.mon + 1 ∈ Digits 2 := by
  have range := h.mon
  exact digits_two (by omega)

theorem mday_digits : gmt.mday ∈ Digits 2 := by
  have range := h.mday
  exact digits_two (by omega)

theorem hour_digits : gmt.hour ∈ Digits 2 := by
  have range := h.hour
  exact digits_two (by omega)

theorem min_digits : gmt.min ∈ Digits 2 := by
  have range := h.min
  exact digits_two (by omega)

theorem sec_digits : gmt.sec ∈ Digits 2 := by
  have range := h.sec
  exact digits_two (by omega)

theorem tdiv_usec : usec.tdiv 1000 = usec / 1000 := Int.tdiv_eq_ediv_of_nonneg h.usec.1

theorem usec_digits : usec.tdiv 1000 ∈ Digits 3 := by
  have range := h.usec
  rw [h.tdiv_usec]
  exact (⟨by omega, by omega⟩ : 0 ≤ usec / 1000 ∧ usec / 1000 < 1000)

include h'

/-- The texts are ordered as the times. -/
theorem timeText_lt_iff :
    timeText gmt usec < timeText gmt' usec' ↔ moment gmt usec < moment gmt' usec' := by
  rw [timeText_eq, timeText_eq, numeral_w4.append_lt_iff h.year_digits h'.year_digits,
    numeral_w2.append_lt_iff h.mon_digits h'.mon_digits,
    numeral_w2.append_lt_iff h.mday_digits h'.mday_digits, Numeral.front_lt_iff,
    numeral_w2.append_lt_iff h.hour_digits h'.hour_digits, Numeral.front_lt_iff,
    numeral_w2.append_lt_iff h.min_digits h'.min_digits, Numeral.front_lt_iff,
    numeral_w2.append_lt_iff h.sec_digits h'.sec_digits, Numeral.front_lt_iff,
    numeral_w3.lt_iff _ h.usec_digits _ h'.usec_digits, h.tdiv_usec, h'.tdiv_usec]
  simp only [moment, List.cons_lt_cons_iff, List.lt_irrefl, and_false, or_false,
    Int.add_lt_add_iff_right, Int.add_left_inj]

theorem timeText_eq_iff :
    timeText gmt usec = timeText gmt' usec' ↔ moment gmt usec = moment gmt' usec' := by
  rw [timeText_eq, timeText_eq, numeral_w4.append_eq_iff h.year_digits h'.year_digits,
    numeral_w2.append_eq_iff h.mon_digits h'.mon_digits,
    numeral_w2.append_eq_iff h.mday_digits h'.mday_digits, List.append_cancel_left_eq,
    numeral_w2.append_eq_iff h.hour_digits h'.hour_digits, List.append_cancel_left_eq,
    numeral_w2.append_eq_iff h.min_digits h'.min_digits, List.append_cancel_left_eq,
    numeral_w2.append_eq_iff h.sec_digits h'.sec_digits, List.append_cancel_left_eq,
    numeral_w3.eq_iff h.usec_digits h'.usec_digits, h.tdiv_usec, h'.tdiv_usec]
  simp only [moment, List.cons.injEq, and_true, Int.add_left_inj]

omit h'

/-- The text has neither the delimiter nor any other control character. -/
theorem notMem_timeText : soh ∉ timeText gmt usec := by
  have clear : ∀ {ds : List UInt8}, (∀ c ∈ ds, IsDigit c) → soh ∉ ds := soh_notMem_of_digits
  have two : ∀ {v : Int}, v ∈ Digits 2 → soh ∉ w2 v := fun hv =>
    clear (isDigit_of_cast (fun _ => w2_cast) hv)
  have dash : soh ∉ ascii "-" := by decide
  have colon : soh ∉ ascii ":" := by decide
  have point : soh ∉ ascii "." := by decide
  have year := clear (isDigit_of_cast (fun _ => w4_cast) h.year_digits)
  have millis := clear (isDigit_of_cast (fun _ => w3_cast) h.usec_digits)
  simp only [timeText, List.mem_append, not_or]
  exact ⟨⟨⟨⟨⟨⟨⟨⟨⟨⟨year, two h.mon_digits⟩, two h.mday_digits⟩, dash⟩, two h.hour_digits⟩,
    colon⟩, two h.min_digits⟩, colon⟩, two h.sec_digits⟩, point⟩, millis⟩

end Tm.Calendar

end Order

section Messages

variable {maxMessageSize : Nat}

theorem Builder.Adds.trans {b c d : Builder} {fields later : List (FieldTag × FieldValue)}
    (first : Adds b fields c) (second : Adds c later d) : Adds b (fields ++ later) d := by
  induction second with
  | start =>
      rw [List.append_nil]
      exact first
  | field before added ih =>
      rw [← List.append_assoc]
      exact (ih first).field added
  | append before source appended ih _ =>
      rw [← List.append_assoc]
      exact (ih first).append source appended

/-- The fields of a message with a time. -/
def timedFields (before : List (FieldTag × FieldValue)) (tag : FieldTag) (gmt : Tm) (usec : Int)
    (after : List (FieldTag × FieldValue)) : List (FieldTag × FieldValue) :=
  before ++ (tag, .text (timeText gmt usec)) :: after

/-- `bytes` is a message in which a builder has put the time between other fields. -/
structure Timed (maxMessageSize : Nat) (before : List (FieldTag × FieldValue)) (tag : FieldTag)
    (gmt : Tm) (usec : Int) (after : List (FieldTag × FieldValue)) (bytes : List UInt8) :
    Prop where
  calendar : gmt.Calendar usec
  body : tag ≠ .checkSum ∧ tag ≠ .bodyLength
  last : ∀ f ∈ after, f.1 ≠ tag
  others : Sendable (before ++ after)
  few : (((timedFields before tag gmt usec after).map Prod.fst).filter
    (· ≠ .beginString)).dedup.length ≤ 62
  fits : bytes.length ≤ maxMessageSize
  made : ∃ start b c c' d b' tmp, reset.run start = .ok () b ∧ Adds b before c ∧
    (addTime tag gmt usec).run c = .ok () c' ∧ Adds c' after d ∧
    (build tmp).run d = .ok bytes b'

variable {before after : List (FieldTag × FieldValue)} {tag : FieldTag} {gmt : Tm} {usec : Int}
  {bytes : List UInt8}

theorem Timed.sendable (h : Timed maxMessageSize before tag gmt usec after bytes) :
    Sendable (timedFields before tag gmt usec after) := by
  have others := h.others
  constructor
  · intro f hf
    rcases List.mem_append.mp hf with first | rest
    · exact others.tags f (List.mem_append_left _ first)
    · rcases List.mem_cons.mp rest with rfl | later
      · exact h.body
      · exact others.tags f (List.mem_append_right _ later)
  · intro f hf
    rcases List.mem_append.mp hf with first | rest
    · exact others.values f (List.mem_append_left _ first)
    · rcases List.mem_cons.mp rest with rfl | later
      · exact h.calendar.notMem_timeText
      · exact others.values f (List.mem_append_right _ later)

/-- The time is read back as its text. -/
theorem Timed.reads (h : Timed maxMessageSize before tag gmt usec after bytes)
    (small : maxMessageSize ≤ 65535) (msg : FixMessage maxMessageSize) :
    ∃ parsed, FixMessage.parse bytes msg GroupDefs.empty = .ok (parsed, []) ∧
      parsed.getString FixMessage.root tag = .ok (some (timeText gmt usec)) := by
  obtain ⟨start, b, c, c', d, b', tmp, cleared, first, stamped, second, built⟩ := h.made
  have added : Adds b (timedFields before tag gmt usec after) d := by
    unfold timedFields
    rw [List.append_cons]
    rw [addTime_eq] at stamped
    exact (first.field (f := (tag, .text (timeText gmt usec))) stamped).trans second
  rw [reset_ok (room_of_reset cleared)] at cleared
  cases cleared
  rw [added.progress _ rfl] at built
  obtain ⟨-, rfl⟩ := (build_progress tmp _ _).2 _ _ built
  have fits := h.fits
  have size := length_framed tmp (timedFields before tag gmt usec after)
  have short : (bodyOf (timedFields before tag gmt usec after)).length < 10 ^ 6 := by
    unfold encodedSize at size
    omega
  have unended := framed_unended h.sendable tmp short fits
  obtain ⟨l, stored⟩ := stored_of_few tmp h.few
  obtain ⟨buf, parse⟩ := unended.parse_cut msg stored
  have near : Near (framed tmp (timedFields before tag gmt usec after)).fields := by
    apply near_of_length
    have total := congrArg List.length
      (cut_eq_wireAll (framed tmp (timedFields before tag gmt usec after)))
    rw [List.length_append] at total
    omega
  have decoded := decoded_of_stored h.sendable short stored near buf
  refine ⟨_, parse, ?_⟩
  have value := decoded.values (tag, .text (timeText gmt usec)) (by simp [timedFields])
  have final : lastValue tag (timedFields before tag gmt usec after) =
      some (timeText gmt usec) := by
    unfold lastValue timedFields
    rw [KeyedList.lastOf_of_split (x := (tag, FieldValue.text (timeText gmt usec))) h.last]
    rfl
  rwa [final] at value

/-- Times that are sent in two messages and read back compare as texts just as they compare
as times, to the millisecond. -/
theorem times_read_in_order {before' after' : List (FieldTag × FieldValue)} {tag' : FieldTag}
    {gmt' : Tm} {usec' : Int} {bytes' : List UInt8}
    (h : Timed maxMessageSize before tag gmt usec after bytes)
    (h' : Timed maxMessageSize before' tag' gmt' usec' after' bytes')
    (small : maxMessageSize ≤ 65535) (msg msg' : FixMessage maxMessageSize) :
    ∃ parsed parsed' text text',
      FixMessage.parse bytes msg GroupDefs.empty = .ok (parsed, []) ∧
      FixMessage.parse bytes' msg' GroupDefs.empty = .ok (parsed', []) ∧
      parsed.getString FixMessage.root tag = .ok (some text) ∧
      parsed'.getString FixMessage.root tag' = .ok (some text') ∧
      text.length = 21 ∧ text'.length = 21 ∧
      (text < text' ↔ moment gmt usec < moment gmt' usec') ∧
      (text = text' ↔ moment gmt usec = moment gmt' usec') := by
  obtain ⟨parsed, parse, text⟩ := h.reads small msg
  obtain ⟨parsed', parse', text'⟩ := h'.reads small msg'
  exact ⟨parsed, parsed', _, _, parse, parse', text, text', rfl, rfl,
    h.calendar.timeText_lt_iff h'.calendar, h.calendar.timeText_eq_iff h'.calendar⟩

/-- A second before the new year, and the new year. -/
def lastSecond : Tm := ⟨125, 11, 31, 23, 59, 59⟩

def newYear : Tm := ⟨126, 0, 1, 0, 0, 0⟩

theorem timed_lastSecond : ∃ bytes,
    Timed 600 [(.clOrdID, .text (ascii "A"))] .sendingTime lastSecond 999999 [] bytes := by
  have cleared : reset.run (new 128) = .ok () (headed 128) := rfl
  have first : Adds (headed 128) [(.clOrdID, .text (ascii "A"))] _ := .field .start rfl
  refine ⟨_, ⟨by decide, by decide, by decide, by decide, by decide, by decide, by decide⟩,
    by decide, by decide, ⟨by decide, by decide⟩, by decide, ?_,
    _, _, _, _, _, _, .replicate 6 0, cleared, first, rfl, .start, rfl⟩
  decide +kernel

theorem timed_newYear : ∃ bytes, Timed 600 [] .sendingTime newYear 0 [] bytes := by
  have cleared : reset.run (new 128) = .ok () (headed 128) := rfl
  refine ⟨_, ⟨by decide, by decide, by decide, by decide, by decide, by decide, by decide⟩,
    by decide, by decide, ⟨by decide, by decide⟩, by decide, ?_,
    _, _, _, _, _, _, .replicate 6 0, cleared, .start, rfl, .start, rfl⟩
  decide +kernel

theorem times_read_in_order_new_year :
    ∃ bytes bytes', ∃ parsed parsed' : FixMessage 600, ∃ text text',
      FixMessage.parse bytes (emptyMessage admits_600) GroupDefs.empty = .ok (parsed, []) ∧
      FixMessage.parse bytes' (emptyMessage admits_600) GroupDefs.empty = .ok (parsed', []) ∧
      parsed.getString FixMessage.root .sendingTime = .ok (some text) ∧
      parsed'.getString FixMessage.root .sendingTime = .ok (some text') ∧ text < text' := by
  obtain ⟨bytes, earlier⟩ := timed_lastSecond
  obtain ⟨bytes', later⟩ := timed_newYear
  obtain ⟨parsed, parsed', text, text', parse, parse', read, read', -, -, order, -⟩ :=
    times_read_in_order earlier later (by decide) (emptyMessage admits_600)
      (emptyMessage admits_600)
  exact ⟨bytes, bytes', parsed, parsed', text, text', parse, parse', read, read',
    order.mpr (by decide)⟩

end Messages

end FastLittleMarket.Fix
