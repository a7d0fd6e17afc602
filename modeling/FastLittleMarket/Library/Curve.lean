import Mathlib.Algebra.BigOperators.Group.List.Basic
import Mathlib.Algebra.Order.BigOperators.Group.List
import Mathlib.Order.Hom.Basic
import Mathlib.Order.Lattice.Nat

/-!
Cumulative curves: how much of a quantity stands at each place of a line or in front
of it. An amount is put at a place, or taken from the front up to a limit.
-/

namespace FastLittleMarket

abbrev Curve (P : Type*) [Preorder P] := P →o ℕ

namespace Curve

variable {P : Type*} [LinearOrder P]

def empty : Curve P := ⟨fun _ => 0, fun _ _ _ => Nat.le_refl 0⟩

/-- `n` more at the place `x`. -/
def put (d : Curve P) (x : P) (n : ℕ) : Curve P where
  toFun p := d p + if x ≤ p then n else 0
  monotone' p q h := by
    apply Nat.add_le_add (d.monotone h)
    split_ifs with hp hq
    · exact Nat.le_refl n
    · exact absurd (le_trans hp h) hq
    · exact Nat.zero_le n
    · exact Nat.le_refl 0

/-- `n` taken from the front, or all there is up to the limit. -/
def take (d : Curve P) (limit : P) (n : ℕ) : Curve P where
  toFun p := d p - min n (d (min p limit))
  monotone' p q h := by
    have whole := d.monotone h
    dsimp only
    rcases le_total q limit with near | far
    · rw [min_eq_left near, min_eq_left (le_trans h near)]
      omega
    · rw [min_eq_right far]
      rcases le_total p limit with inside | outside
      · rw [min_eq_left inside]
        have beyond := d.monotone far
        omega
      · rw [min_eq_right outside]
        omega

variable {d : Curve P} {x limit p : P} {m n : ℕ}

theorem empty_apply (p : P) : (empty : Curve P) p = 0 := rfl

theorem put_apply (d : Curve P) (x p : P) (n : ℕ) :
    d.put x n p = d p + if x ≤ p then n else 0 := rfl

theorem take_apply (d : Curve P) (limit p : P) (n : ℕ) :
    d.take limit n p = d p - min n (d (min p limit)) := rfl

theorem take_limit (d : Curve P) (limit : P) (n : ℕ) : d.take limit n limit = d limit - n := by
  rw [take_apply, min_self]
  omega

@[simp] theorem put_zero (d : Curve P) (x : P) : d.put x 0 = d := by
  ext p
  rw [put_apply, ite_self, Nat.add_zero]

theorem put_put (d : Curve P) (x : P) (m n : ℕ) : (d.put x m).put x n = d.put x (m + n) := by
  ext p
  simp only [put_apply]
  split_ifs <;> omega

/-- Two takes up to one limit are one take. -/
theorem take_take (d : Curve P) (limit : P) (m n : ℕ) :
    (d.take limit m).take limit n = d.take limit (m + n) := by
  ext p
  simp only [take_apply, min_assoc, min_self]
  have reach : d (min p limit) ≤ d p := d.monotone (min_le_left p limit)
  omega

theorem take_of_none (h : d limit = 0) (n : ℕ) : d.take limit n = d := by
  ext p
  have reach : d (min p limit) ≤ d limit := d.monotone (min_le_right p limit)
  rw [take_apply]
  omega

theorem take_nothing (d : Curve P) (limit : P) : d.take limit 0 = d := by
  ext p
  rw [take_apply, Nat.zero_min, Nat.sub_zero]

section Front

variable (front : ∀ p < x, d p = 0) (inside : x ≤ limit)
include front inside

/-- What stands in front of all the rest is taken first, whole. -/
theorem take_put_of_le (fits : m ≤ n) : (d.put x m).take limit n = d.take limit (n - m) := by
  ext p
  simp only [take_apply, put_apply]
  by_cases h : x ≤ p
  · rw [if_pos h, if_pos (le_min h inside)]
    omega
  · have before := front p (lt_of_not_ge h)
    rw [if_neg h, before]
    omega

/-- It is taken in part where less is wanted. -/
theorem take_put_of_lt (exceeds : n < m) : (d.put x m).take limit n = d.put x (m - n) := by
  ext p
  simp only [take_apply, put_apply]
  by_cases h : x ≤ p
  · rw [if_pos h, if_pos h, if_pos (le_min h inside)]
    omega
  · have before := front p (lt_of_not_ge h)
    rw [if_neg h, if_neg h, before]
    omega

end Front

section Lists

variable {α : Type*} (place : α → P) (amount : α → ℕ)

/-- The curve of a list of amounts, each at its place. -/
def ofList : List α → Curve P
  | [] => empty
  | a :: as => (ofList as).put (place a) (amount a)

variable {place amount}

theorem ofList_eq_zero {as : List α} (far : ∀ a ∈ as, p < place a) :
    ofList place amount as p = 0 := by
  induction as with
  | nil => rfl
  | cons a as ih =>
      rw [List.forall_mem_cons] at far
      have behind : ¬ place a ≤ p := not_le_of_gt far.1
      rw [ofList, put_apply, ih far.2, if_neg behind]

theorem ofList_pos_iff {as : List α} (positive : ∀ a ∈ as, 0 < amount a) :
    0 < ofList place amount as p ↔ ∃ a ∈ as, place a ≤ p := by
  induction as with
  | nil => simp [ofList, empty_apply]
  | cons a as ih =>
      rw [List.forall_mem_cons] at positive
      rw [ofList, put_apply, List.exists_mem_cons_iff, ← ih positive.2]
      have own := positive.1
      split_ifs with h
      · simp only [h, true_or, iff_true]
        omega
      · simp [h]

theorem ofList_perm {as bs : List α} (h : as.Perm bs) :
    ofList place amount as = ofList place amount bs := by
  induction h with
  | nil => rfl
  | cons a h ih => rw [ofList, ofList, ih]
  | swap a b as =>
      ext p
      simp only [ofList, put_apply]
      omega
  | trans h h' ih ih' => exact ih.trans ih'

end Lists

end Curve

end FastLittleMarket
