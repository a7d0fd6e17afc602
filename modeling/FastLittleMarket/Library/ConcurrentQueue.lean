import Mathlib.Data.List.Nodup
import Mathlib.Data.List.Perm.Subperm
import Mathlib.Logic.Function.Basic

/-!
A queue that several producers share, by its contract: each element comes out
once, and those of one producer in the order they went in. Nothing is said of the
order between producers, nor of when an attempt to take an element succeeds.

The contract is over the states of an implementation. `Delivers` draws up what it
means for the elements that went in and out so far.
-/

namespace FastLittleMarket

/-- Wherever `b` stands in the list, `a` stands before it. -/
def Before {β : Type*} (a b : β) (l : List β) : Prop :=
  ∀ front back, l = front ++ b :: back → a ∈ front

section Before

variable {β : Type*} {a b : β} {l m : List β}

theorem before_of_prefix (h : l <+: m) (before : Before a b m) : Before a b l := by
  rintro front back rfl
  obtain ⟨rest, rfl⟩ := h
  exact before front (back ++ rest) (by simp)

theorem before_append (ha : a ∈ l) (hb : b ∉ l) (r : List β) : Before a b (l ++ r) := by
  intro front back h
  have cut : front ++ [b] <+: l ++ r := ⟨back, by simp [h]⟩
  rcases List.prefix_or_prefix_of_prefix (List.prefix_append l r) cut with short | long
  · rcases List.mem_append.mp (short.subset ha) with mem | last
    · exact mem
    · rw [List.mem_singleton] at last
      exact absurd (last ▸ ha) hb
  · exact absurd (long.subset (by simp)) hb

end Before

structure ConcurrentQueue (P α : Type) [DecidableEq P] where
  State : Type
  empty : State
  enqueue : P → α → State → State → Prop
  tryDequeue : Option α → State → State → Prop
  /-- What each producer put in that has not come out, first in first. -/
  pending : State → P → List α
  pending_empty : ∀ p, pending empty p = []
  pending_enqueue : ∀ p x q q', enqueue p x q q' →
    pending q' = Function.update (pending q) p (pending q p ++ [x])
  pending_dequeue : ∀ x q q', tryDequeue (some x) q q' →
    ∃ p rest, pending q p = x :: rest ∧ pending q' = Function.update (pending q) p rest
  pending_miss : ∀ q q', tryDequeue none q q' → pending q' = pending q

/-- The queue that does all its contract allows: any producer's first element comes
out, or none. -/
def ConcurrentQueue.perProducer (P α : Type) [DecidableEq P] : ConcurrentQueue P α where
  State := P → List α
  empty _ := []
  enqueue p x q q' := q' = Function.update q p (q p ++ [x])
  tryDequeue found q q' :=
    match found with
    | none => q' = q
    | some x => ∃ p rest, q p = x :: rest ∧ q' = Function.update q p rest
  pending q := q
  pending_empty _ := rfl
  pending_enqueue _ _ _ _ h := h
  pending_dequeue _ _ _ h := h
  pending_miss _ _ h := h

variable {P α : Type} [DecidableEq P] {owner : α → P}

/-- Of each producer, the elements that `entered` are the ones that `left`, followed
by the pending ones. -/
def Delivers (owner : α → P) (entered left : List α) (pending : P → List α) : Prop :=
  ∀ p, entered.filter (fun x => owner x = p) = left.filter (fun x => owner x = p) ++ pending p

theorem delivers_nil : Delivers owner [] [] fun _ => [] :=
  fun _ => rfl

namespace Delivers

variable {entered left : List α} {pending : P → List α}

theorem of_pending (h : Delivers owner entered left pending) {p : P} {x : α}
    (hx : x ∈ pending p) : x ∈ entered ∧ owner x = p := by
  have mem : x ∈ entered.filter fun x => owner x = p := by
    rw [h p]
    exact List.mem_append_right _ hx
  simpa using List.mem_filter.mp mem

theorem enter (h : Delivers owner entered left pending) {p : P} {x : α} (own : owner x = p) :
    Delivers owner (entered ++ [x]) left (Function.update pending p (pending p ++ [x])) := by
  intro p'
  rw [List.filter_append, h p']
  by_cases hp : p' = p
  · subst hp
    simp [own]
  · have other : owner x ≠ p' := fun e => hp (e.symm.trans own)
    simp [Function.update_of_ne hp, other]

theorem leave (h : Delivers owner entered left pending) {p : P} {x : α} {rest : List α}
    (front : pending p = x :: rest) :
    Delivers owner entered (left ++ [x]) (Function.update pending p rest) := by
  have own := (h.of_pending (p := p) (x := x) (by simp [front])).2
  intro p'
  rw [List.filter_append, h p']
  by_cases hp : p' = p
  · subst hp
    simp [own, front]
  · have other : owner x ≠ p' := fun e => hp (e.symm.trans own)
    simp [Function.update_of_ne hp, other]

theorem isPrefix (h : Delivers owner entered left pending) (p : P) :
    left.filter (fun x => owner x = p) <+: entered.filter (fun x => owner x = p) :=
  ⟨pending p, (h p).symm⟩

/-- Nothing is lost, and nothing comes out that did not go in. -/
theorem mem_iff (h : Delivers owner entered left pending) (x : α) :
    x ∈ entered ↔ x ∈ left ∨ x ∈ pending (owner x) := by
  have same := congrArg (x ∈ ·) (h (owner x))
  simp only [List.mem_append, List.mem_filter, decide_true, and_true, eq_iff_iff] at same
  exact same

theorem count_le [DecidableEq α] (h : Delivers owner entered left pending) (x : α) :
    left.count x + (pending (owner x)).count x = entered.count x := by
  have same := congrArg (List.count x) (h (owner x))
  rw [List.count_append, List.count_filter (by simp), List.count_filter (by simp)] at same
  exact same.symm

theorem subperm (h : Delivers owner entered left pending) : left.Subperm entered := by
  classical
  rw [List.subperm_ext_iff]
  intro x _
  have total := h.count_le x
  omega

/-- Where nothing is pending, all that went in came out. -/
theorem perm (h : Delivers owner entered left pending) (settled : ∀ p, pending p = []) :
    left.Perm entered := by
  classical
  rw [List.perm_iff_count]
  intro x
  have total := h.count_le x
  rw [settled, List.count_nil] at total
  omega

/-- What goes in once comes out at most once. -/
theorem nodup (h : Delivers owner entered left pending) (once : entered.Nodup) :
    left.Nodup := by
  classical
  rw [List.nodup_iff_count_le_one] at once ⊢
  intro x
  have total := h.count_le x
  have le := once x
  omega

theorem notMem_pending (h : Delivers owner entered left pending) (once : entered.Nodup) {x : α}
    (out : x ∈ left) : x ∉ pending (owner x) := by
  classical
  intro waiting
  have total := h.count_le x
  have le := List.nodup_iff_count_le_one.mp once x
  have := List.count_pos_iff.mpr out
  have := List.count_pos_iff.mpr waiting
  omega

/-- Two elements of one producer come out in the order they went in. -/
theorem first_out (h : Delivers owner entered left pending) (once : entered.Nodup)
    {before after : List α} {x y : α} (went : entered = before ++ y :: after)
    (earlier : x ∈ before) (same : owner x = owner y) : Before x y left := by
  intro l r came
  have lists := h (owner y)
  rw [went, List.nodup_middle, List.nodup_cons, List.mem_append, not_or] at once
  rw [went, came, List.filter_append, List.filter_append, List.filter_cons_of_pos (by simp),
    List.filter_cons_of_pos (by simp), List.append_assoc, List.cons_append] at lists
  have heads := (List.append_cons_inj_of_notMem
    (fun hy => once.1.1 (List.mem_of_mem_filter hy))
    (fun hy => once.1.2 (List.mem_of_mem_filter hy))).mp lists
  have mem : x ∈ before.filter fun z => owner z = owner y :=
    List.mem_filter.mpr ⟨earlier, by simpa using same⟩
  rw [heads.1] at mem
  exact List.mem_of_mem_filter mem

end Delivers

end FastLittleMarket
