import Mathlib.Algebra.Group.Nat.Defs
import Mathlib.Data.List.Basic
import FastLittleMarket.Fix.FieldTag

/-!
Numbers as decimal text: the number that digits denote, and the digits that
`to_chars` writes.
-/

namespace FastLittleMarket.Fix

def IsDigit (c : UInt8) : Prop := 48 ≤ c ∧ c ≤ 57

instance (c : UInt8) : Decidable (IsDigit c) := inferInstanceAs (Decidable (48 ≤ c ∧ c ≤ 57))

theorem isDigit_of_all {ds : List UInt8} (h : ds.all (fun c => decide (IsDigit c)) = true) :
    ∀ c ∈ ds, IsDigit c := by
  simpa using h

theorem IsDigit.ne_minus {c : UInt8} (h : IsDigit c) : c ≠ 45 := by
  rintro rfl
  exact absurd h.1 (by decide)

theorem equals_notMem_of_digits {text : List UInt8} (h : ∀ c ∈ text, IsDigit c) :
    equals ∉ text := by
  intro hmem
  exact absurd (h equals hmem).2 (by decide)

theorem soh_notMem_of_digits {text : List UInt8} (h : ∀ c ∈ text, IsDigit c) : soh ∉ text := by
  intro hmem
  exact absurd (h soh hmem).1 (by decide)

/-- The number a text of digits denotes behind the digits of `n`. -/
def decimalFrom (n : Nat) (ds : List UInt8) : Nat :=
  ds.foldl (fun n c => n * 10 + (c.toNat - 48)) n

theorem decimalFrom_append (n : Nat) (ds es : List UInt8) :
    decimalFrom n (ds ++ es) = decimalFrom (decimalFrom n ds) es := List.foldl_append

theorem le_decimalFrom (ds : List UInt8) (n : Nat) : n ≤ decimalFrom n ds := by
  induction ds generalizing n with
  | nil => exact Nat.le_refl _
  | cons c ds ih =>
      have rest : n * 10 + (c.toNat - 48) ≤ decimalFrom n (c :: ds) := ih _
      omega

theorem decimalFrom_lt {ds : List UInt8} (digits : ∀ c ∈ ds, IsDigit c) (n : Nat) :
    decimalFrom n ds < (n + 1) * 10 ^ ds.length := by
  induction ds generalizing n with
  | nil => simp [decimalFrom]
  | cons c ds ih =>
      have last := UInt8.le_iff_toNat_le.mp (digits c List.mem_cons_self).2
      have rest := ih (fun d hd => digits d (List.mem_cons_of_mem c hd)) (n * 10 + (c.toNat - 48))
      have head : n * 10 + (c.toNat - 48) + 1 ≤ (n + 1) * 10 := by
        change c.toNat ≤ 57 at last
        omega
      calc decimalFrom n (c :: ds)
          < (n * 10 + (c.toNat - 48) + 1) * 10 ^ ds.length := rest
        _ ≤ (n + 1) * 10 * 10 ^ ds.length := Nat.mul_le_mul_right _ head
        _ = (n + 1) * 10 ^ (c :: ds).length := by
            rw [List.length_cons, Nat.pow_succ', Nat.mul_assoc]

theorem decimalFrom_zeros (k : Nat) (ds : List UInt8) :
    decimalFrom 0 (List.replicate k 48 ++ ds) = decimalFrom 0 ds := by
  induction k with
  | zero => rfl
  | succ k ih => exact ih

/-- `to_chars` of a number into a buffer that is long enough. -/
def toChars (n : Nat) : List UInt8 := (Nat.toDigits 10 n).map fun c => UInt8.ofNat c.toNat

theorem toChars_of_lt {n : Nat} (h : n < 10) : toChars n = [UInt8.ofNat (48 + n)] := by
  rw [toChars, Nat.toDigits_of_lt_base h, List.map_singleton, Nat.toNat_digitChar_of_lt_ten h]

/-- The digits of a number are those of its tenth and a last one. -/
theorem toChars_append {n d : Nat} (hn : 0 < n) (hd : d < 10) :
    toChars (10 * n + d) = toChars n ++ [UInt8.ofNat (48 + d)] := by
  rw [← toChars_of_lt hd, toChars, toChars, toChars, ← List.map_append,
    Nat.toDigits_append_toDigits (by decide) hn hd]

theorem toNat_digit {d : Nat} (h : d < 10) : (UInt8.ofNat (48 + d)).toNat = 48 + d :=
  UInt8.toNat_ofNat_of_lt' (Nat.lt_of_lt_of_le (Nat.add_lt_add_left h 48) (by decide))

theorem isDigit_digit {d : Nat} (h : d < 10) : IsDigit (UInt8.ofNat (48 + d)) := by
  constructor
  · rw [UInt8.le_iff_toNat_le, toNat_digit h]
    exact Nat.le_add_right _ _
  · rw [UInt8.le_iff_toNat_le, toNat_digit h]
    change 48 + d ≤ 57
    omega

theorem isDigit_toChars (n : Nat) : ∀ c ∈ toChars n, IsDigit c := by
  induction n using Nat.base_induction 10 (by decide) with
  | single m hm =>
      rw [toChars_of_lt hm]
      intro c hc
      obtain rfl := List.mem_singleton.mp hc
      exact isDigit_digit hm
  | digit m k hk hm ih =>
      rw [toChars_append hm hk]
      intro c hc
      rcases List.mem_append.mp hc with front | last
      · exact ih c front
      · obtain rfl := List.mem_singleton.mp last
        exact isDigit_digit hk

theorem decimalFrom_toChars (n : Nat) : decimalFrom 0 (toChars n) = n := by
  induction n using Nat.base_induction 10 (by decide) with
  | single m hm =>
      rw [toChars_of_lt hm]
      change 0 * 10 + ((UInt8.ofNat (48 + m)).toNat - 48) = m
      rw [toNat_digit hm]
      omega
  | digit m k hk hm ih =>
      rw [toChars_append hm hk, decimalFrom_append, ih]
      change m * 10 + ((UInt8.ofNat (48 + k)).toNat - 48) = 10 * m + k
      rw [toNat_digit hk]
      omega

theorem length_toChars_le {n k : Nat} (hk : 0 < k) : (toChars n).length ≤ k ↔ n < 10 ^ k := by
  rw [toChars, List.length_map, Nat.length_toDigits_le_iff (by decide) hk]

end FastLittleMarket.Fix
