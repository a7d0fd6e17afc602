import Mathlib.Algebra.Group.Nat.Defs
import Mathlib.Data.List.Lex
import Mathlib.Data.Set.Basic

/-!
Words of fixed width in the lexicographic order. A code for the values of a range is a
`Numeral` where its words are of one width and ordered as the values; words made of
several codes, one behind the other, are ordered by the first of them that differs. The
base `b` numerals of `n` digits are a code for the numbers below `b ^ n`.
-/

namespace FastLittleMarket

section Words

variable {β : Type*} [LT β] {x y x' y' : List β}

theorem append_lt_append_iff (width : x.length = y.length) :
    x ++ x' < y ++ y' ↔ x < y ∨ x = y ∧ x' < y' := by
  induction x generalizing y with
  | nil =>
      obtain rfl := List.length_eq_zero_iff.mp width.symm
      simp
  | cons a x ih =>
      cases y with
      | nil => cases width
      | cons b y =>
          have shorter : x.length = y.length := Nat.succ.inj width
          simp only [List.cons_append, List.cons_lt_cons_iff, ih shorter, List.cons.injEq]
          tauto

end Words

/-- The words that `code` gives the values of `range` have one width and their order. -/
structure Numeral {ι β : Type*} [LinearOrder ι] [LT β] (range : Set ι) (width : Nat)
    (code : ι → List β) : Prop where
  length : ∀ v ∈ range, (code v).length = width
  lt_iff : ∀ v ∈ range, ∀ w ∈ range, (code v < code w ↔ v < w)

namespace Numeral

variable {ι β : Type*} [LinearOrder ι] [LT β] {range : Set ι} {width : Nat}
  {code : ι → List β} {v w : ι} {x y : List β}

variable [Std.Irrefl (fun a b : β => a < b)]

theorem eq_iff (h : Numeral range width code) (hv : v ∈ range) (hw : w ∈ range) :
    code v = code w ↔ v = w := by
  refine ⟨fun same => ?_, congrArg code⟩
  have low : ¬ v < w := fun less => by
    have words := (h.lt_iff v hv w hw).mpr less
    rw [same] at words
    exact List.lt_irrefl _ words
  have high : ¬ w < v := fun less => by
    have words := (h.lt_iff w hw v hv).mpr less
    rw [same] at words
    exact List.lt_irrefl _ words
  exact le_antisymm (not_lt.mp high) (not_lt.mp low)

theorem append_lt_iff (h : Numeral range width code) (hv : v ∈ range) (hw : w ∈ range) :
    code v ++ x < code w ++ y ↔ v < w ∨ v = w ∧ x < y := by
  have same : (code v).length = (code w).length := (h.length v hv).trans (h.length w hw).symm
  rw [append_lt_append_iff same, h.lt_iff v hv w hw, h.eq_iff hv hw]

theorem append_eq_iff (h : Numeral range width code) (hv : v ∈ range) (hw : w ∈ range) :
    code v ++ x = code w ++ y ↔ v = w ∧ x = y := by
  have same : (code v).length = (code w).length := (h.length v hv).trans (h.length w hw).symm
  rw [← h.eq_iff hv hw]
  exact ⟨fun whole => List.append_inj whole same, fun both => by rw [both.1, both.2]⟩

/-- Words with a common front are ordered as what stands behind it. -/
theorem front_lt_iff {front : List β} : front ++ x < front ++ y ↔ x < y := by
  rw [append_lt_append_iff rfl]
  refine ⟨fun less => ?_, fun less => .inr ⟨rfl, less⟩⟩
  exact (less.resolve_left (List.lt_irrefl front)).2

omit [Std.Irrefl (fun a b : β => a < b)]

theorem congr {code' : ι → List β} (h : Numeral range width code)
    (same : ∀ v ∈ range, code' v = code v) : Numeral range width code' where
  length v hv := by rw [same v hv, h.length v hv]
  lt_iff v hv w hw := by rw [same v hv, same w hw, h.lt_iff v hv w hw]

/-- The code of what an order embedding makes of the values. -/
theorem comp {κ : Type*} [LinearOrder κ] {f : κ → ι} {domain : Set κ}
    (h : Numeral range width code) (maps : ∀ v ∈ domain, f v ∈ range)
    (mono : ∀ v ∈ domain, ∀ w ∈ domain, (f v < f w ↔ v < w)) :
    Numeral domain width (code ∘ f) where
  length v hv := h.length _ (maps v hv)
  lt_iff v hv w hw := (h.lt_iff _ (maps v hv) _ (maps w hw)).trans (mono v hv w hw)

end Numeral

section Positional

theorem div_mod_lt_iff {b v w : Nat} (positive : 0 < b) :
    v / b < w / b ∨ v / b = w / b ∧ v % b < w % b ↔ v < w := by
  have parts := Nat.div_add_mod v b
  have parts' := Nat.div_add_mod w b
  have below := Nat.mod_lt v positive
  have below' := Nat.mod_lt w positive
  rcases Nat.lt_trichotomy (v / b) (w / b) with less | same | more
  · have room : b * (v / b + 1) ≤ b * (w / b) := Nat.mul_le_mul_left b less
    rw [Nat.mul_add_one] at room
    exact iff_of_true (.inl less) (by omega)
  · rw [same] at parts
    simp only [same, Nat.lt_irrefl, true_and, false_or]
    omega
  · have room : b * (w / b + 1) ≤ b * (v / b) := Nat.mul_le_mul_left b more
    rw [Nat.mul_add_one] at room
    exact iff_of_false (by omega) (by omega)

variable {β : Type*} (base : Nat) (digit : Nat → β)

/-- The base `base` digits of a number, the most significant one first. -/
def word : Nat → Nat → List β
  | 0, _ => []
  | n + 1, v => digit (v / base ^ n) :: word n (v % base ^ n)

variable {base digit} [LT β] [Std.Irrefl (fun a b : β => a < b)]

theorem numeral_word (positive : 0 < base)
    (mono : ∀ d < base, ∀ e < base, (digit d < digit e ↔ d < e)) (n : Nat) :
    Numeral {v | v < base ^ n} n (word base digit n) := by
  have inj : ∀ d < base, ∀ e < base, (digit d = digit e ↔ d = e) := by
    intro d hd e he
    refine ⟨fun same => ?_, congrArg digit⟩
    have low := (mono d hd e he).not
    have high := (mono e he d hd).not
    rw [same] at low high
    exact Nat.le_antisymm (Nat.not_lt.mp (high.mp (Std.Irrefl.irrefl _)))
      (Nat.not_lt.mp (low.mp (Std.Irrefl.irrefl _)))
  induction n with
  | zero =>
      refine ⟨fun _ _ => rfl, fun v hv w hw => ?_⟩
      have first : v = 0 := Nat.lt_one_iff.mp hv
      have second : w = 0 := Nat.lt_one_iff.mp hw
      simp [word, first, second]
  | succ n ih =>
      have place : 0 < base ^ n := Nat.pow_pos positive
      have leading : ∀ v, v < base ^ (n + 1) → v / base ^ n < base := fun v hv =>
        (Nat.div_lt_iff_lt_mul place).mpr (by rwa [← Nat.pow_succ'])
      refine ⟨fun v hv => ?_, fun v hv w hw => ?_⟩
      · rw [word, List.length_cons, ih.length _ (Nat.mod_lt v place)]
      · rw [word, word, List.cons_lt_cons_iff, mono _ (leading v hv) _ (leading w hw),
          inj _ (leading v hv) _ (leading w hw),
          ih.lt_iff _ (Nat.mod_lt v place) _ (Nat.mod_lt w place)]
        exact div_mod_lt_iff place

omit [LT β] [Std.Irrefl (fun a b : β => a < b)] in
theorem exists_digit_of_mem {n v : Nat} (small : v < base ^ n) {c : β}
    (hc : c ∈ word base digit n v) : ∃ d < base, c = digit d := by
  induction n generalizing v with
  | zero => cases hc
  | succ n ih =>
      rw [Nat.pow_succ] at small
      have place : 0 < base ^ n := by
        apply Nat.pos_of_ne_zero
        intro zero
        rw [zero, Nat.zero_mul] at small
        cases small
      rcases List.mem_cons.mp hc with rfl | later
      · exact ⟨_, (Nat.div_lt_iff_lt_mul place).mpr (by rwa [Nat.mul_comm]), rfl⟩
      · exact ih (Nat.mod_lt v place) later

end Positional

end FastLittleMarket
