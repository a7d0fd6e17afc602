import Mathlib.Algebra.Order.Monoid.Canonical.Defs
import Mathlib.Order.CompletePartialOrder
import Mathlib.Order.Interval.Set.Disjoint

/-!
Extents of a linear memory, and stacks of them: laid end to end from a base, the last
one first.
-/

namespace FastLittleMarket

structure Extent (α : Type*) where
  start : α
  size : α
  deriving DecidableEq, Repr

namespace Extent

variable {α : Type*}

def stop [Add α] (e : Extent α) : α := e.start + e.size

def cells [Add α] [Preorder α] (e : Extent α) : Set α := Set.Ico e.start e.stop

/-- From `base`, without gaps, up to the top. -/
inductive Stacked [Add α] (base : α) : List (Extent α) → α → Prop
  | nil : Stacked base [] base
  | push {live : List (Extent α)} {top : α} (below : Stacked base live top) (size : α) :
      Stacked base (⟨top, size⟩ :: live) (top + size)

theorem Stacked.pop [Add α] {base top : α} {e : Extent α} {live : List (Extent α)}
    (stack : Stacked base (e :: live) top) : top = e.stop ∧ Stacked base live e.start := by
  cases stack with
  | push below size => exact ⟨rfl, below⟩

section Order

variable [Add α] [Preorder α] [CanonicallyOrderedAdd α] {base top : α}
  {live : List (Extent α)}

theorem Stacked.base_le (stack : Stacked base live top) : base ≤ top := by
  induction stack with
  | nil => exact le_rfl
  | push below size ih => exact ih.trans le_self_add

theorem Stacked.stop_le (stack : Stacked base live top) {e : Extent α} (he : e ∈ live) :
    e.stop ≤ top := by
  induction stack with
  | nil => cases he
  | push below size ih =>
      cases he with
      | head => exact le_rfl
      | tail _ he => exact (ih he).trans le_self_add

end Order

/-- What starts at the top shares no cell with the stack. -/
theorem Stacked.disjoint [Add α] [LinearOrder α] [CanonicallyOrderedAdd α] {base top : α}
    {live : List (Extent α)} (stack : Stacked base live top) (size : α) {e : Extent α}
    (he : e ∈ live) : Disjoint (cells ⟨top, size⟩) e.cells := by
  refine Set.disjoint_left.mpr fun x hx hx' => ?_
  exact absurd (hx'.2.trans_le (stack.stop_le he)) (not_lt_of_ge hx.1)

end Extent

end FastLittleMarket
