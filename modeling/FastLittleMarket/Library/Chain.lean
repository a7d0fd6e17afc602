import Mathlib.Data.Option.Basic
import FastLittleMarket.Library.Loop

/-!
Singly linked chains of cells, given by their successor function. `Linked next p l`
says that following `next` from the pointer `p` visits exactly the cells `l`; what
the two loops over a chain compute is read off that list.
-/

namespace FastLittleMarket.Chain

variable {α ε : Type*}

inductive Linked (next : α → Option α) : Option α → List α → Prop
  | null : Linked next none []
  | cell {a : α} {l : List α} (rest : Linked next (next a) l) : Linked next (some a) (a :: l)

/-- The cell `n` steps behind the pointer. -/
def nth (next : α → Option α) : Nat → Option α → Option α
  | 0, p => p
  | _ + 1, none => none
  | n + 1, some a => nth next n (next a)

/-- One round of the loop that counts the cells. -/
def countBody (next : α → Option α) (s : Nat × Option α) :
    Except ε (Loop.Step (Nat × Option α) Nat) :=
  match s.2 with
  | none => .ok (.exit s.1)
  | some a => .ok (.next (s.1 + 1, next a))

variable {next next' : α → Option α} {p : Option α} {l : List α}

theorem Linked.nth_eq (h : Linked next p l) (n : Nat) : nth next n p = l[n]? := by
  induction h generalizing n with
  | null => cases n <;> rfl
  | cell rest ih =>
      cases n with
      | zero => rfl
      | succ n => simpa [nth] using ih n

theorem Linked.count_eq (timeout : ε) (h : Linked next p l) {fuel : Nat}
    (enough : l.length < fuel) (n : Nat) :
    Loop.run timeout (countBody next) fuel (n, p) = .ok (n + l.length) := by
  induction h generalizing fuel n with
  | null =>
      obtain ⟨fuel, rfl⟩ := Nat.exists_eq_succ_of_ne_zero (Nat.ne_zero_of_lt enough)
      rfl
  | @cell a l rest ih =>
      rw [List.length_cons] at enough
      obtain ⟨fuel, rfl⟩ := Nat.exists_eq_succ_of_ne_zero (Nat.ne_zero_of_lt enough)
      simp only [Loop.run, countBody]
      rw [ih (by omega), List.length_cons]
      congr 1
      omega

/-- Only the successors of the visited cells matter. -/
theorem Linked.frame (h : Linked next p l) (same : ∀ a ∈ l, next' a = next a) :
    Linked next' p l := by
  induction h with
  | null => exact .null
  | @cell a l rest ih =>
      have rest' := ih fun b hb => same b (by simp [hb])
      rw [← same a (by simp)] at rest'
      exact .cell rest'

theorem Linked.eq_nil (h : Linked next none l) : l = [] := by
  cases h
  rfl

theorem Linked.eq_head (h : Linked next p l) : p = l.head? := by
  cases h <;> rfl

theorem Linked.exists_last {a : α} (h : Linked next (some a) l) : ∃ t, l.getLast? = some t := by
  cases h
  exact ⟨_, List.getLast?_cons⟩

theorem linked_singleton {a : α} (last : next a = none) : Linked next (some a) [a] :=
  .cell (last ▸ .null)

theorem Linked.snoc {t a : α} (h : Linked next p (l ++ [t])) (distinct : (l ++ [t]).Nodup)
    (same : ∀ b ∈ l, next' b = next b) (link : next' t = some a) (last : next' a = none) :
    Linked next' p (l ++ [t, a]) := by
  induction l generalizing p with
  | nil =>
      cases h with
      | cell rest => exact .cell (link ▸ linked_singleton last)
  | cons b l ih =>
      cases h with
      | cell rest =>
          have tail := ih rest (List.nodup_cons.mp distinct).2 fun c hc => same c (by simp [hc])
          rw [← same b (by simp)] at tail
          exact .cell tail

end FastLittleMarket.Chain
