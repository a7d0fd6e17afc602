import Mathlib.Data.List.Infix
import Mathlib.Data.Nat.Basic
import Mathlib.Tactic.TypeStar

/-!
Loops with an explicit exit, over an arbitrary state, result and failure type.

A body either asks for another round from a new state, leaves the loop with a
result, or fails. `run` is the executable loop under a round budget; `Reaches` is
its budget-free meaning, and what a body does in the state reached is what `run`
does at every budget above the number of rounds.
-/

namespace FastLittleMarket.Loop

variable {σ ε ρ : Type*}

theorem exists_of_bind {α β : Type*} {x : Except ε α} {f : α → Except ε β} {b : β}
    (h : x.bind f = .ok b) : ∃ a, x = .ok a ∧ f a = .ok b := by
  cases x with
  | error e => cases h
  | ok a => exact ⟨a, rfl, h⟩

theorem exists_of_map {α β : Type*} {x : Except ε α} {k : α → β} {b : β}
    (h : x.map k = .ok b) : ∃ a, x = .ok a ∧ k a = b := by
  cases x with
  | error e => cases h
  | ok a => exact ⟨a, rfl, Except.ok.inj h⟩

/-- Two sequences that start alike and go on alike up to `k`. -/
theorem bind_eq_map {α β γ : Type*} {f : α → Except ε β} {g : α → Except ε γ} {k : β → γ}
    (same : ∀ a, g a = (f a).map k) (x : Except ε α) : x.bind g = (x.bind f).map k := by
  cases x with
  | error e => rfl
  | ok a => exact same a

inductive Step (σ ρ : Type*) where
  | next (s : σ)
  | exit (r : ρ)

/-- The budget counts evaluations of the body, the leaving one included. -/
def run (timeout : ε) (body : σ → Except ε (Step σ ρ)) : Nat → σ → Except ε ρ
  | 0, _ => .error timeout
  | fuel + 1, s =>
      match body s with
      | .error e => .error e
      | .ok (.exit r) => .ok r
      | .ok (.next s') => run timeout body fuel s'

/-- The states from which the body asked for another round, oldest first. -/
def rounds (body : σ → Except ε (Step σ ρ)) : Nat → σ → List σ
  | 0, _ => []
  | fuel + 1, s =>
      match body s with
      | .ok (.next s') => s :: rounds body fuel s'
      | _ => []

/-- `n` rounds of the body lead from one state to another. -/
inductive Reaches (body : σ → Except ε (Step σ ρ)) : Nat → σ → σ → Prop
  | here (s : σ) : Reaches body 0 s s
  | next {n : Nat} {s s' t : σ} (round : body s = .ok (.next s')) (rest : Reaches body n s' t) :
      Reaches body (n + 1) s t

variable {timeout : ε} {body : σ → Except ε (Step σ ρ)} {n m fuel : Nat} {s t u : σ}

theorem Reaches.one (round : body s = .ok (.next t)) : Reaches body 1 s t :=
  .next round (.here t)

theorem Reaches.trans (h : Reaches body n s t) (h' : Reaches body m t u) :
    Reaches body (n + m) s u := by
  induction h with
  | here s => simpa using h'
  | next round rest ih =>
      have joined := Reaches.next round (ih h')
      rwa [Nat.add_right_comm] at joined

theorem Reaches.run_eq (h : Reaches body n s t) (fuel : Nat) :
    run timeout body (n + fuel) s = run timeout body fuel t := by
  induction h with
  | here s => rw [Nat.zero_add]
  | next round rest ih =>
      rw [Nat.add_right_comm]
      simpa only [run, round] using ih

theorem Reaches.exit {r : ρ} (h : Reaches body n s t) (leaves : body t = .ok (.exit r))
    (enough : n < fuel) : run timeout body fuel s = .ok r := by
  obtain ⟨k, rfl⟩ := Nat.exists_eq_add_of_lt enough
  rw [Nat.add_assoc, h.run_eq]
  simp only [run, leaves]

theorem Reaches.fail {e : ε} (h : Reaches body n s t) (fails : body t = .error e)
    (enough : n < fuel) : run timeout body fuel s = .error e := by
  obtain ⟨k, rfl⟩ := Nat.exists_eq_add_of_lt enough
  rw [Nat.add_assoc, h.run_eq]
  simp only [run, fails]

theorem Reaches.snoc (h : Reaches body n s t) (round : body t = .ok (.next u)) :
    Reaches body (n + 1) s u := h.trans (.one round)

theorem Reaches.exists_last (h : Reaches body (n + 1) s u) :
    ∃ t, Reaches body n s t ∧ body t = .ok (.next u) := by
  induction n generalizing s with
  | zero =>
      obtain _ | ⟨round, rest⟩ := h
      cases rest
      exact ⟨s, .here s, round⟩
  | succ n ih =>
      obtain _ | ⟨round, rest⟩ := h
      obtain ⟨t, before, last⟩ := ih rest
      exact ⟨t, .next round before, last⟩

theorem Reaches.unique (h : Reaches body n s t) (h' : Reaches body n s u) : t = u := by
  induction h with
  | here s =>
      cases h'
      rfl
  | next round rest ih =>
      obtain _ | ⟨round', rest'⟩ := h'
      rw [round] at round'
      cases round'
      exact ih rest'

/-- What every round keeps holds in every state reached. -/
theorem Reaches.keeps {P : σ → Prop} (h : Reaches body n s t)
    (round : ∀ s s', P s → body s = .ok (.next s') → P s') (start : P s) : P t := by
  induction h with
  | here s => exact start
  | next first rest ih => exact ih (round _ _ start first)

theorem exists_of_run_error {e : ε} (h : run timeout body fuel s = .error e)
    (inTime : e ≠ timeout) :
    ∃ n t, n < fuel ∧ Reaches body n s t ∧ body t = .error e := by
  induction fuel generalizing s with
  | zero => exact absurd (Except.error.inj h).symm inTime
  | succ fuel ih =>
      unfold run at h
      cases round : body s with
      | error e' =>
          rw [round] at h
          cases h
          exact ⟨0, s, Nat.succ_pos fuel, .here s, round⟩
      | ok outcome =>
          rw [round] at h
          cases outcome with
          | exit r => cases h
          | next s' =>
              obtain ⟨n, t, few, rest, fails⟩ := ih h
              exact ⟨n + 1, t, Nat.succ_lt_succ few, .next round rest, fails⟩

theorem exists_of_run_ok {r : ρ} (h : run timeout body fuel s = .ok r) :
    ∃ n t, n < fuel ∧ Reaches body n s t ∧ body t = .ok (.exit r) := by
  induction fuel generalizing s with
  | zero => cases h
  | succ fuel ih =>
      unfold run at h
      cases round : body s with
      | error e' =>
          rw [round] at h
          cases h
      | ok outcome =>
          rw [round] at h
          cases outcome with
          | exit r' =>
              cases h
              exact ⟨0, s, Nat.succ_pos fuel, .here s, round⟩
          | next s' =>
              obtain ⟨n, t, few, rest, leaves⟩ := ih h
              exact ⟨n + 1, t, Nat.succ_lt_succ few, .next round rest, leaves⟩

section Simulation

variable {σ' ε' ρ' ω : Type*} {timeout' : ε'} {body' : σ' → Except ε' (Step σ' ρ')}
  {related : σ → σ' → Prop} {fuel' : Nat} {s₁ : σ} {s₂ : σ'}

/-- What the rounds of a loop note down, the last one included. -/
def log (body : σ → Except ε (Step σ ρ)) (note : σ → Option ω) : Nat → σ → List ω
  | 0, _ => []
  | fuel + 1, s =>
      (note s).toList ++
        match body s with
        | .ok (.next s') => log body note fuel s'
        | _ => []

/-- A loop that follows another one for as long as that one goes on notes down what that one
does, and possibly more. -/
theorem log_prefix (related : σ → σ' → Prop) {note : σ → Option ω} {note' : σ' → Option ω}
    (notes : ∀ {s t w}, related s t → note s = some w → note' t = some w)
    (round : ∀ {s t s'}, related s t → body s = .ok (.next s') →
      note s ≠ none ∧ ∃ t', body' t = .ok (.next t') ∧ related s' t')
    (start : related s₁ s₂) (enough : fuel ≤ fuel') :
    log body note fuel s₁ <+: log body' note' fuel' s₂ := by
  induction fuel generalizing fuel' s₁ s₂ with
  | zero => exact List.nil_prefix
  | succ fuel ih =>
      obtain ⟨more, rfl⟩ := Nat.exists_eq_add_of_le' enough
      unfold log
      cases noted : note s₁ with
      | none =>
          split
          · rename_i s' goes
            exact absurd noted (round start goes).1
          · exact List.nil_prefix
      | some w =>
          rw [notes start noted]
          refine (List.prefix_append_right_inj _).mpr ?_
          split
          · rename_i s' goes
            obtain ⟨-, t', goes', later⟩ := round start goes
            simp only [goes']
            exact ih later (Nat.le_add_left fuel more)
          · exact List.nil_prefix

theorem Reaches.follows
    (round : ∀ {s t s'}, related s t → body s = .ok (.next s') →
      ∃ t', body' t = .ok (.next t') ∧ related s' t')
    (h : Reaches body n s₁ t) (start : related s₁ s₂) :
    ∃ t', Reaches body' n s₂ t' ∧ related t t' := by
  induction h generalizing s₂ with
  | here s => exact ⟨s₂, .here s₂, start⟩
  | next first rest ih =>
      obtain ⟨t', goes, later⟩ := round start first
      obtain ⟨u, further, last⟩ := ih later
      exact ⟨u, .next goes further, last⟩

/-- A loop that follows another one until that one leaves with a good result leaves with a
result that goes with it. -/
theorem run_follows (related : σ → σ' → Prop) (good : ρ → Prop) (matching : ρ → ρ' → Prop)
    (round : ∀ {s t s'}, related s t → body s = .ok (.next s') →
      ∃ t', body' t = .ok (.next t') ∧ related s' t')
    (leave : ∀ {s t r}, related s t → body s = .ok (.exit r) → good r →
      ∃ r', body' t = .ok (.exit r') ∧ matching r r')
    (start : related s₁ s₂) (enough : fuel ≤ fuel') {r : ρ}
    (left : run timeout body fuel s₁ = .ok r) (fine : good r) :
    ∃ r', run timeout' body' fuel' s₂ = .ok r' ∧ matching r r' := by
  obtain ⟨n, t, few, reached, leaves⟩ := exists_of_run_ok left
  obtain ⟨t', reached', at_end⟩ := reached.follows round start
  obtain ⟨r', leaves', matched⟩ := leave at_end leaves fine
  exact ⟨r', reached'.exit leaves' (Nat.lt_of_lt_of_le few enough), matched⟩

end Simulation

section Images

variable {σ' ρ' : Type*} {body' : σ' → Except ε (Step σ' ρ')}

def Step.map (g : σ → σ') (k : ρ → ρ') : Step σ ρ → Step σ' ρ'
  | .next s => .next (g s)
  | .exit r => .exit (k r)

/-- A loop whose body does in the image of a state what the other body does in the state, as
long as an invariant holds there, ends with the image of the result. -/
theorem run_map (timeout : ε) (good : σ → Prop) (g : σ → σ') (k : ρ → ρ')
    (same : ∀ s, good s → body' (g s) = (body s).map (Step.map g k))
    (keeps : ∀ s s', good s → body s = .ok (.next s') → good s') (fuel : Nat) (start : good s) :
    run timeout body' fuel (g s) = (run timeout body fuel s).map k := by
  induction fuel generalizing s with
  | zero => rfl
  | succ fuel ih =>
      have image := same s start
      unfold run
      cases round : body s with
      | error e =>
          rw [round] at image
          rw [image]
          rfl
      | ok outcome =>
          rw [round] at image
          rw [image]
          cases outcome with
          | exit r => rfl
          | next s' => exact ih (keeps s s' start round)

end Images

end FastLittleMarket.Loop
