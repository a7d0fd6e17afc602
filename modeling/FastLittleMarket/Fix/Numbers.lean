import Mathlib.Data.List.Induction
import FastLittleMarket.Fix.Digits
import FastLittleMarket.Fix.FieldMap

/-!
Numbers in the message memory. What `parseInt` and `parseLong` read depends on the
characters at their place only. All values on the way are within `int` as soon as the
number and ten times its digits but the last are; `parseInt` is exact then, and has no
defined result otherwise.
-/

namespace FastLittleMarket.Fix

section Bytes

theorem bytesFrom_append (pre xs post : List UInt8) :
    bytesFrom (pre ++ (xs ++ post)) pre.length xs.length = xs := by
  apply List.ext_getElem
  · simp [bytesFrom]
  · intro i h₁ h₂
    have inside : (pre ++ (xs ++ post))[pre.length + i]? = some xs[i] := by
      rw [List.getElem?_append_right (Nat.le_add_right _ _), Nat.add_sub_cancel_left,
        List.getElem?_append_left h₂, List.getElem?_eq_getElem h₂]
    simp [bytesFrom, byteAt, List.getD_eq_getElem?_getD, inside]

theorem bytesFrom_congr {xs ys : List UInt8} {start length : Nat}
    (same : ∀ i, start ≤ i → i < start + length → byteAt xs i = byteAt ys i) :
    bytesFrom xs start length = bytesFrom ys start length := by
  apply List.map_congr_left
  intro i hi
  rw [List.mem_range'_1] at hi
  exact same i hi.1 hi.2

theorem byteAt_append_left {xs ys : List UInt8} {i : Nat} (h : i < xs.length) :
    byteAt (xs ++ ys) i = byteAt xs i := by
  simp [byteAt, List.getD_eq_getElem?_getD, List.getElem?_append_left h]

/-- What `parseInt` and `parseLong` read: the characters up to the end and the one at the
start. -/
theorem parseSigned_congr {bound : Int} {xs ys : List UInt8} {start stop : Nat}
    (same : ∀ i, start ≤ i → i < stop ∨ i = start → byteAt xs i = byteAt ys i) :
    parseSigned bound xs start stop = parseSigned bound ys start stop := by
  have sign : byteAt xs start = byteAt ys start := same start (Nat.le_refl _) (.inr rfl)
  have digits : ∀ first, start ≤ first →
      bytesFrom xs first (stop - first) = bytesFrom ys first (stop - first) := by
    intro first le
    apply bytesFrom_congr
    intro i hle hlt
    exact same i (Nat.le_trans le hle) (.inl (by omega))
  unfold parseSigned
  simp only [sign]
  split <;> rw [digits _ (by omega)]

theorem parseInt_congr {xs ys : List UInt8} {start stop : Nat}
    (same : ∀ i, start ≤ i → i < stop ∨ i = start → byteAt xs i = byteAt ys i) :
    parseInt xs start stop = parseInt ys start stop := by
  exact parseSigned_congr same

theorem bytesFrom_succ (bytes : List UInt8) (start length : Nat) :
    bytesFrom bytes start (length + 1) =
      byteAt bytes start :: bytesFrom bytes (start + 1) length := rfl

theorem byteAt_append_cons (pre : List UInt8) (c : UInt8) (post : List UInt8) :
    byteAt (pre ++ c :: post) pre.length = c := by
  simp [byteAt, List.getD_eq_getElem?_getD]

theorem byteAt_append_right (pre xs : List UInt8) (i : Nat) :
    byteAt (pre ++ xs) (pre.length + i) = byteAt xs i := by
  simp [byteAt, List.getD_eq_getElem?_getD, List.getElem?_append_right]

theorem bytesFrom_append_right (pre xs : List UInt8) (start length : Nat) :
    bytesFrom (pre ++ xs) (pre.length + start) length = bytesFrom xs start length := by
  unfold bytesFrom
  rw [← List.map_add_range', List.map_map]
  exact List.map_congr_left fun i _ => byteAt_append_right pre xs i

/-- Numbers are read alike wherever they stand. -/
theorem parseInt_append_right (pre xs : List UInt8) (start stop : Nat) :
    parseInt (pre ++ xs) (pre.length + start) (pre.length + stop) = parseInt xs start stop := by
  unfold parseInt parseSigned
  simp only [byteAt_append_right]
  split
  · rw [Nat.add_assoc, Nat.add_sub_add_left, bytesFrom_append_right]
    simp only [Nat.add_lt_add_iff_left]
  · rw [Nat.add_sub_add_left, bytesFrom_append_right]
    simp only [Nat.add_lt_add_iff_left]

end Bytes

section Decimal

variable {bound : Int}

theorem digit_toInt {c : UInt8} (h : IsDigit c) :
    c.toInt8.toInt - 48 = ((c.toNat - 48 : Nat) : Int) := by
  obtain ⟨low, high⟩ := h
  have low := UInt8.le_iff_toNat_le.mp low
  have high := UInt8.le_iff_toNat_le.mp high
  change 48 ≤ c.toNat at low
  change c.toNat ≤ 57 at high
  have signed : c.toInt8.toInt = (c.toNat : Int) := by
    apply BitVec.toInt_eq_toNat_of_lt
    change 2 * c.toNat < 2 ^ 8
    omega
  omega

theorem inRange_natCast (n : Nat) (pos : 0 < bound) :
    inRange bound n = if (n : Int) < bound then .ok (n : Int) else .error .intOverflow := by
  unfold inRange
  have low : -bound ≤ (n : Int) := by omega
  simp only [low, true_and]

theorem digitStep_natCast (n : Nat) {c : UInt8} (digit : IsDigit c) (pos : 0 < bound) :
    digitStep bound n c =
      if ((n * 10 + (c.toNat - 48) : Nat) : Int) < bound then
        .ok ((n * 10 + (c.toNat - 48) : Nat) : Int)
      else .error .intOverflow := by
  have tens : ((n : Int) * 10) = ((n * 10 : Nat) : Int) := by omega
  unfold digitStep
  rw [tens, inRange_natCast _ pos]
  by_cases first : ((n * 10 : Nat) : Int) < bound
  · have sum : ((n * 10 : Nat) : Int) + (c.toInt8.toInt - 48) =
        ((n * 10 + (c.toNat - 48) : Nat) : Int) := by
      rw [digit_toInt digit]
      omega
    rw [if_pos first]
    simp only [bind, Except.bind]
    rw [sum, inRange_natCast _ pos]
  · have second : ¬ ((n * 10 + (c.toNat - 48) : Nat) : Int) < bound := by omega
    rw [if_neg first, if_neg second]
    rfl

/-- The values on the way grow towards the last one. -/
theorem foldlM_digitStep {ds : List UInt8} (digits : ∀ c ∈ ds, IsDigit c) (pos : 0 < bound)
    {n : Nat} (small : (n : Int) < bound) :
    ds.foldlM (digitStep bound) (n : Int) =
      if (decimalFrom n ds : Int) < bound then .ok (decimalFrom n ds : Int)
      else .error .intOverflow := by
  induction ds generalizing n with
  | nil =>
      have here : (decimalFrom n [] : Int) < bound := small
      rw [if_pos here]
      rfl
  | cons c ds ih =>
      have behind : decimalFrom n (c :: ds) = decimalFrom (n * 10 + (c.toNat - 48)) ds := rfl
      have le := le_decimalFrom ds (n * 10 + (c.toNat - 48))
      rw [List.foldlM_cons, digitStep_natCast n (digits c (by simp)) pos, behind]
      by_cases next : ((n * 10 + (c.toNat - 48) : Nat) : Int) < bound
      · rw [if_pos next]
        exact ih (fun d hd => digits d (by simp [hd])) next
      · have last : ¬ (decimalFrom (n * 10 + (c.toNat - 48)) ds : Int) < bound := by omega
        rw [if_neg next, if_neg last]
        rfl

/-- `parseInt` of digits that stand in the message. -/
theorem parseInt_digits {ds : List UInt8} (digits : ∀ c ∈ ds, IsDigit c)
    (small : decimalFrom 0 ds < 2 ^ 31) (pre post : List UInt8)
    (unsigned : byteAt (pre ++ (ds ++ post)) pre.length ≠ 45) :
    parseInt (pre ++ (ds ++ post)) pre.length (pre.length + ds.length) =
      .ok (decimalFrom 0 ds : Int) := by
  have value : ds.foldlM (digitStep (2 ^ 31)) ((0 : Nat) : Int) = _ :=
    foldlM_digitStep digits (by decide) (by decide)
  rw [if_pos (by omega)] at value
  unfold parseInt parseSigned
  simp only [unsigned, if_false, Nat.not_lt_of_le (Nat.le_add_right _ _),
    Nat.add_sub_cancel_left, bytesFrom_append]
  rw [bind_pure]
  exact value

theorem parseInt_decimal {ds : List UInt8} (digits : ∀ c ∈ ds, IsDigit c) (some_digit : ds ≠ [])
    (small : decimalFrom 0 ds < 2 ^ 31) (pre post : List UInt8) :
    parseInt (pre ++ (ds ++ post)) pre.length (pre.length + ds.length) =
      .ok (decimalFrom 0 ds : Int) := by
  apply parseInt_digits digits small
  obtain ⟨d, ds, rfl⟩ := List.exists_cons_of_ne_nil some_digit
  rw [List.cons_append, byteAt_append_cons]
  exact (digits d (by simp)).ne_minus

end Decimal

/-- The digit loop over unbounded integers. -/
def digitsFrom (value : Int) (ds : List UInt8) : Int :=
  ds.foldl (fun value c => value * 10 + (c.toInt8.toInt - 48)) value

def InInt (v : Int) : Prop := -2 ^ 31 ≤ v ∧ v < 2 ^ 31

instance (v : Int) : Decidable (InInt v) := inferInstanceAs (Decidable (_ ∧ _))

/-- The digits of a text, without its sign. -/
def digitsOf (text : List UInt8) : List UInt8 :=
  if text.head? = some 45 then text.tail else text

/-- The number a text stands for, over unbounded integers. -/
def numberOf (text : List UInt8) : Int :=
  if text.head? = some 45 then -digitsFrom 0 text.tail else digitsFrom 0 text

/-- The last product and the last sum of the digit loop are in range. -/
def DigitsFit (ds : List UInt8) : Prop :=
  InInt (digitsFrom 0 ds.dropLast * 10) ∧ InInt (digitsFrom 0 ds)

/-- The number at the place is in range, and its end lies behind its sign. -/
structure ReadsInt (bytes : List UInt8) (start length : Nat) : Prop where
  signed : length = 0 → byteAt bytes start ≠ 45
  digits : DigitsFit (digitsOf (bytesFrom bytes start length))
  number : InInt (numberOf (bytesFrom bytes start length))

/-- The arithmetic has left `int`, or a loop goes on behind the end of its text. -/
def ParseFault.Numeric (e : ParseFault) : Prop := e = .intOverflow ∨ e = .outOfRange

section Range

variable {ds : List UInt8} {c : UInt8} {v : Int}

theorem inInt_ok (h : InInt v) : inInt v = .ok v := if_pos h

theorem inInt_overflow (h : ¬ InInt v) : inInt v = .error .intOverflow := if_neg h

theorem digit_bounds (c : UInt8) : -176 ≤ c.toInt8.toInt - 48 ∧ c.toInt8.toInt - 48 < 80 := by
  have low := c.toInt8.le_toInt
  have high := c.toInt8.toInt_lt
  omega

theorem digitsFrom_concat (v : Int) (ds : List UInt8) (c : UInt8) :
    digitsFrom v (ds ++ [c]) = digitsFrom v ds * 10 + (c.toInt8.toInt - 48) := by
  simp [digitsFrom]

/-- A number in range has had only smaller ones before. -/
theorem DigitsFit.init (h : DigitsFit (ds ++ [c])) : DigitsFit ds := by
  obtain ⟨product, -⟩ := h
  rw [List.dropLast_concat] at product
  rcases List.eq_nil_or_concat ds with rfl | ⟨ds, d, rfl⟩
  · exact ⟨by decide, by decide⟩
  · rw [List.concat_eq_append] at product ⊢
    have digit := digit_bounds d
    unfold DigitsFit InInt at *
    rw [List.dropLast_concat]
    rw [digitsFrom_concat] at product ⊢
    omega

theorem digitStep_eq (v : Int) (c : UInt8) :
    digitStep (2 ^ 31) v c = if InInt (v * 10) ∧ InInt (v * 10 + (c.toInt8.toInt - 48)) then
      .ok (v * 10 + (c.toInt8.toInt - 48)) else .error .intOverflow := by
  change (do let value ← inInt (v * 10); inInt (value + (c.toInt8.toInt - 48))) = _
  by_cases product : InInt (v * 10)
  · rw [inInt_ok product]
    by_cases sum : InInt (v * 10 + (c.toInt8.toInt - 48))
    · rw [if_pos ⟨product, sum⟩]
      exact inInt_ok sum
    · rw [if_neg fun both => sum both.2]
      exact inInt_overflow sum
  · rw [inInt_overflow product, if_neg fun both => product both.1]
    rfl

open Classical in
/-- The digit loop, by what its last round does. -/
theorem foldlM_digitStep_fit (ds : List UInt8) :
    ds.foldlM (digitStep (2 ^ 31)) 0 =
      if DigitsFit ds then .ok (digitsFrom 0 ds) else .error .intOverflow := by
  induction ds using List.reverseRecOn with
  | nil =>
      rw [if_pos ⟨by decide, by decide⟩]
      rfl
  | append_singleton ds c ih =>
      have last : DigitsFit (ds ++ [c]) ↔ InInt (digitsFrom 0 ds * 10) ∧
          InInt (digitsFrom 0 ds * 10 + (c.toInt8.toInt - 48)) := by
        rw [DigitsFit, List.dropLast_concat, digitsFrom_concat]
      rw [List.foldlM_append, ih]
      by_cases before : DigitsFit ds
      · rw [if_pos before]
        change [c].foldlM (digitStep (2 ^ 31)) (digitsFrom 0 ds) = _
        rw [List.foldlM_cons, digitStep_eq, digitsFrom_concat]
        by_cases fit : DigitsFit (ds ++ [c])
        · rw [if_pos (last.mp fit), if_pos fit]
          rfl
        · rw [if_neg fun both => fit (last.mpr both), if_neg fit]
          rfl
      · rw [if_neg before, if_neg fun fit => before fit.init]
        rfl

theorem digitsFrom_decimal {ds : List UInt8} (digits : ∀ c ∈ ds, IsDigit c) (n : Nat) :
    digitsFrom n ds = (decimalFrom n ds : Int) := by
  induction ds generalizing n with
  | nil => rfl
  | cons c ds ih =>
      have first : (n : Int) * 10 + (c.toInt8.toInt - 48) =
          ((n * 10 + (c.toNat - 48) : Nat) : Int) := by
        rw [digit_toInt (digits c List.mem_cons_self)]
        omega
      change digitsFrom ((n : Int) * 10 + (c.toInt8.toInt - 48)) ds = _
      rw [first]
      exact ih (fun d hd => digits d (List.mem_cons_of_mem c hd)) _

theorem digitsFit_of_lt {ds : List UInt8} (digits : ∀ c ∈ ds, IsDigit c)
    (small : decimalFrom 0 ds < 2 ^ 31) : DigitsFit ds := by
  have value : ds.foldlM (digitStep (2 ^ 31)) ((0 : Nat) : Int) = _ :=
    foldlM_digitStep digits (by decide) (by decide)
  rw [if_pos (by omega)] at value
  by_contra unfit
  have refused := foldlM_digitStep_fit ds
  rw [if_neg unfit] at refused
  cases value.symm.trans refused

end Range

section Places

variable {bytes : List UInt8} {start length : Nat}

open Classical in
/-- `parseInt` by the text at its place. -/
theorem parseInt_eq_numberOf (signed : length = 0 → byteAt bytes start ≠ 45) :
    parseInt bytes start (start + length) =
      if DigitsFit (digitsOf (bytesFrom bytes start length)) ∧
          InInt (numberOf (bytesFrom bytes start length)) then
        .ok (numberOf (bytesFrom bytes start length))
      else .error .intOverflow := by
  by_cases negative : byteAt bytes start = 45
  · cases length with
    | zero => exact absurd negative (signed rfl)
    | succ length =>
        have sign : (bytesFrom bytes start (length + 1)).head? = some 45 := by
          rw [bytesFrom_succ, negative]
          rfl
        have digits : digitsOf (bytesFrom bytes start (length + 1)) =
            bytesFrom bytes (start + 1) length := if_pos sign
        have number : numberOf (bytesFrom bytes start (length + 1)) =
            -digitsFrom 0 (bytesFrom bytes (start + 1) length) := if_pos sign
        have span : start + (length + 1) - (start + 1) = length := by omega
        rw [digits, number]
        unfold parseInt parseSigned
        simp only [negative, if_true, span]
        rw [if_neg (by omega), foldlM_digitStep_fit]
        by_cases fit : DigitsFit (bytesFrom bytes (start + 1) length)
        · rw [if_pos fit]
          change inInt (digitsFrom 0 (bytesFrom bytes (start + 1) length) * -1) = _
          rw [Int.mul_neg_one]
          by_cases range : InInt (-digitsFrom 0 (bytesFrom bytes (start + 1) length))
          · rw [if_pos ⟨fit, range⟩, inInt_ok range]
          · rw [if_neg fun both => range both.2, inInt_overflow range]
        · rw [if_neg fit, if_neg fun both => fit both.1]
          rfl
  · have unsigned : (bytesFrom bytes start length).head? ≠ some 45 := by
      cases length with
      | zero => exact nofun
      | succ length =>
          rw [bytesFrom_succ]
          exact fun same => negative (Option.some.inj same)
    have digits : digitsOf (bytesFrom bytes start length) = bytesFrom bytes start length :=
      if_neg unsigned
    have number : numberOf (bytesFrom bytes start length) =
        digitsFrom 0 (bytesFrom bytes start length) := if_neg unsigned
    rw [digits, number]
    unfold parseInt parseSigned
    simp only [negative, if_false, Nat.add_sub_cancel_left, bind_pure]
    rw [if_neg (by omega), foldlM_digitStep_fit]
    by_cases fit : DigitsFit (bytesFrom bytes start length)
    · rw [if_pos fit, if_pos ⟨fit, fit.2⟩]
    · rw [if_neg fit, if_neg fun both => fit both.1]

theorem ReadsInt.parseInt_eq (h : ReadsInt bytes start length) :
    parseInt bytes start (start + length) = .ok (numberOf (bytesFrom bytes start length)) := by
  rw [parseInt_eq_numberOf h.signed, if_pos ⟨h.digits, h.number⟩]

/-- Without a number in range `parseInt` has no defined result. -/
theorem parseInt_fails (h : ¬ ReadsInt bytes start length) :
    ∃ e, parseInt bytes start (start + length) = .error e ∧ e.Numeric := by
  by_cases signed : length = 0 → byteAt bytes start ≠ 45
  · refine ⟨.intOverflow, ?_, .inl rfl⟩
    rw [parseInt_eq_numberOf signed, if_neg fun both => h ⟨signed, both.1, both.2⟩]
  · simp only [Classical.not_imp, not_not] at signed
    obtain ⟨empty, negative⟩ := signed
    refine ⟨.outOfRange, ?_, .inr rfl⟩
    unfold parseInt parseSigned
    simp only [negative, if_true]
    rw [if_pos (by omega)]

/-- A result of `parseInt` is the number of the text. -/
theorem parseInt_ok_inv {v : Int} (h : parseInt bytes start (start + length) = .ok v) :
    ReadsInt bytes start length ∧ v = numberOf (bytesFrom bytes start length) := by
  by_cases reads : ReadsInt bytes start length
  · rw [reads.parseInt_eq] at h
    exact ⟨reads, (Except.ok.inj h).symm⟩
  · obtain ⟨e, fails, -⟩ := parseInt_fails reads
    rw [fails] at h
    cases h

theorem ReadsInt.congr {bytes' : List UInt8} (h : ReadsInt bytes start length)
    (same : ∀ i, start ≤ i → i < start + length ∨ i = start → byteAt bytes' i = byteAt bytes i) :
    ReadsInt bytes' start length := by
  have text : bytesFrom bytes' start length = bytesFrom bytes start length :=
    bytesFrom_congr fun i le lt => same i le (.inl lt)
  refine ⟨fun empty => ?_, text ▸ h.digits, text ▸ h.number⟩
  rw [same start (Nat.le_refl _) (.inr rfl)]
  exact h.signed empty

end Places

end FastLittleMarket.Fix
