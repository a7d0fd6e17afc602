import Mathlib.Order.Fin.Basic
import FastLittleMarket.Exchange.ThreadPool

/-!
The end of a thread pool. The destructor turns to one worker after the other, the last of
the array first; a worker that is asked to stop goes at most once more through its loop,
so that the destructor waits for one task of a worker at most, however many are queued.
-/

namespace FastLittleMarket.ThreadPool

variable {P τ : Type} [DecidableEq P] {Q : ConcurrentQueue P (Enqueued P τ)} {σ ε : Type}
  {exec : τ → σ → Except ε σ} {s s' : ThreadPool Q σ} {a : Action P τ} {i k : Shard}

section Phases

/-- The steps that a worker which is asked to stop has left before it returns. -/
def stepsLeft : Phase P τ → Nat
  | .finished => 0
  | .testing => 1
  | .running _ => 2
  | .polling => 3

def takesLeft : Phase P τ → Nat
  | .polling => 1
  | _ => 0

def runsLeft : Phase P τ → Nat
  | .polling => 1
  | .running _ => 1
  | _ => 0

def PoolStep.ofWorker (k : Shard) (t : PoolStep Q σ) : Bool :=
  match t.label with
  | .test i => i = k
  | .poll i _ => i = k
  | .run i _ => i = k
  | _ => false

theorem phase_requestStop : ((s.requestStop i).workers k).phase = (s.workers k).phase := by
  by_cases h : k = i
  · subst h
    simp [requestStop]
  · simp [requestStop, h]

theorem phase_joined : ((s.joined i).workers k).phase = (s.workers k).phase := by
  unfold joined
  split
  · rfl
  · exact phase_requestStop

theorem phase_setPhase (phase : Phase P τ) :
    ((s.setPhase i phase).workers k).phase = if k = i then phase else (s.workers k).phase := by
  by_cases h : k = i
  · subst h
    simp [setPhase]
  · simp [setPhase, h]

theorem stopRequested_setPhase (phase : Phase P τ) :
    ((s.setPhase i phase).workers k).stopRequested = (s.workers k).stopRequested := by
  by_cases h : k = i
  · subst h
    simp [setPhase]
  · simp [setPhase, h]

theorem stopRequested_requestStop :
    ((s.requestStop i).workers k).stopRequested =
      if k = i then true else (s.workers k).stopRequested := by
  by_cases h : k = i
  · subst h
    simp [requestStop]
  · simp [requestStop, h]

theorem Step.worker_cases (step : Step exec s a s') (k : Shard) :
    ((s'.workers k).phase = (s.workers k).phase ∧ PoolStep.ofWorker k ⟨s, a, s'⟩ = false ∧
        PoolStep.polled k ⟨s, a, s'⟩ = none ∧ PoolStep.executed k ⟨s, a, s'⟩ = none) ∨
      (a = .test k ∧ (s.workers k).phase = .testing ∧
        (s'.workers k).phase = afterTest (s.workers k)) ∨
      (∃ found, a = .poll k found ∧ (s.workers k).phase = .polling ∧
        (s'.workers k).phase = afterPoll found) ∨
      ∃ call, a = .run k call ∧ (s.workers k).phase = .running call ∧
        (s'.workers k).phase = .testing := by
  cases step with
  | enqueue client shard task live put => exact .inl ⟨rfl, rfl, rfl, rfl⟩
  | test i phase =>
      by_cases h : k = i
      · subst h
        exact .inr (.inl ⟨rfl, phase, by rw [phase_setPhase, if_pos rfl]⟩)
      · refine .inl ⟨by rw [phase_setPhase, if_neg h], ?_, rfl, rfl⟩
        simp [PoolStep.ofWorker, Ne.symm h]
  | poll i found phase got =>
      by_cases h : k = i
      · subst h
        exact .inr (.inr (.inl ⟨found, rfl, phase, by rw [phase_setPhase, if_pos rfl]⟩))
      · refine .inl ⟨by rw [phase_setPhase, if_neg h], ?_, ?_, rfl⟩
        · simp [PoolStep.ofWorker, Ne.symm h]
        · simp [PoolStep.polled, Ne.symm h]
  | run i call phase returns =>
      by_cases h : k = i
      · subst h
        exact .inr (.inr (.inr ⟨call, rfl, phase, by rw [phase_setPhase, if_pos rfl]⟩))
      · refine .inl ⟨by rw [phase_setPhase, if_neg h], ?_, rfl, ?_⟩
        · simp [PoolStep.ofWorker, Ne.symm h]
        · simp [PoolStep.executed, Ne.symm h]
  | destroy alive => exact .inl ⟨phase_requestStop, rfl, rfl, rfl⟩
  | join i waits phase => exact .inl ⟨phase_joined, rfl, rfl, rfl⟩

theorem Step.teardown_cases (step : Step exec s a s') :
    (s'.teardown = s.teardown ∧
        ∀ k, (s'.workers k).stopRequested = (s.workers k).stopRequested) ∨
      (s.teardown = .alive ∧ ∃ last : Shard, (∀ k, k ≤ last) ∧ s' = s.requestStop last) ∨
      ∃ i, s.teardown = .joining i ∧ (s.workers i).phase = .finished ∧ s' = s.joined i := by
  cases step with
  | enqueue client shard task live put => exact .inl ⟨rfl, fun _ => rfl⟩
  | test i phase => exact .inl ⟨rfl, fun _ => stopRequested_setPhase _⟩
  | poll i found phase got => exact .inl ⟨rfl, fun _ => stopRequested_setPhase _⟩
  | run i call phase returns => exact .inl ⟨rfl, fun _ => stopRequested_setPhase _⟩
  | destroy alive => exact .inr (.inl ⟨alive, Fin.last 3, Fin.le_last, rfl⟩)
  | join i waits phase => exact .inr (.inr ⟨i, waits, phase, rfl⟩)

end Phases

def Asked (s : ThreadPool Q σ) (k : Shard) : Prop :=
  s.teardown = .destroyed ∨ ∃ i, i ≤ k ∧ s.teardown = .joining i

def Joined (s : ThreadPool Q σ) (k : Shard) : Prop :=
  s.teardown = .destroyed ∨ ∃ i, i < k ∧ s.teardown = .joining i

/-- The workers are asked to stop in their turn, none returns without being asked, and
those that are joined have returned. -/
structure InTurn (s : ThreadPool Q σ) : Prop where
  asked : ∀ k, (s.workers k).stopRequested = true ↔ s.Asked k
  returned : ∀ k, (s.workers k).phase = .finished → (s.workers k).stopRequested = true
  joined : ∀ k, s.Joined k → (s.workers k).phase = .finished

theorem inTurn_new (shared : σ) : (new Q shared).InTurn where
  asked k := by simp [new, Asked]
  returned k finished := by cases finished
  joined k joined := by simp [new, Joined] at joined

theorem asked_of_joining (waits : s.teardown = .joining i) : s.Asked k ↔ i ≤ k := by
  simp [Asked, waits]

theorem joined_of_joining (waits : s.teardown = .joining i) : s.Joined k ↔ i < k := by
  simp [Joined, waits]

theorem joined_cases (s : ThreadPool Q σ) (i : Shard) :
    (i.val = 0 ∧ s.joined i = { s with teardown := .destroyed }) ∨
      ∃ j : Shard, i.val = j.val + 1 ∧ s.joined i = s.requestStop j := by
  unfold joined
  by_cases first : i.val = 0
  · exact .inl ⟨first, by rw [if_pos first]⟩
  · refine .inr ⟨⟨i.val - 1, Nat.lt_of_le_of_lt (Nat.sub_le _ _) i.isLt⟩, ?_, ?_⟩
    · exact (Nat.succ_pred_eq_of_ne_zero first).symm
    · rw [if_neg first]

theorem InTurn.quiet (h : s.InTurn) (step : Step exec s a s')
    (teardown : s'.teardown = s.teardown)
    (requests : ∀ k, (s'.workers k).stopRequested = (s.workers k).stopRequested) :
    s'.InTurn := by
  have asked : ∀ k, s'.Asked k ↔ s.Asked k := fun k => by simp [Asked, teardown]
  have joined : ∀ k, s'.Joined k ↔ s.Joined k := fun k => by simp [Joined, teardown]
  refine ⟨fun k => ?_, fun k finished => ?_, fun k done => ?_⟩
  · rw [requests, asked]
    exact h.asked k
  · rw [requests]
    rcases step.worker_cases k with ⟨same, -⟩ | ⟨-, phase, after⟩ | ⟨found, -, -, after⟩ |
      ⟨call, -, -, after⟩
    · exact h.returned k (same ▸ finished)
    · rw [after, afterTest] at finished
      split at finished
      · assumption
      · cases finished
    · rw [after] at finished
      cases found <;> cases finished
    · rw [after] at finished
      cases finished
  · have before := h.joined k ((joined k).mp done)
    rcases step.worker_cases k with ⟨same, -⟩ | ⟨-, phase, -⟩ | ⟨found, -, phase, -⟩ |
      ⟨call, -, phase, -⟩
    · rw [same, before]
    all_goals
      rw [before] at phase
      cases phase

theorem InTurn.stop (h : s.InTurn) (next : ∀ k, s.Asked k ↔ i < k)
    (done : ∀ k, i < k → (s.workers k).phase = .finished) : (s.requestStop i).InTurn := by
  have waits : (s.requestStop i).teardown = .joining i := rfl
  refine ⟨fun k => ?_, fun k finished => ?_, fun k joined => ?_⟩
  · rw [stopRequested_requestStop, asked_of_joining waits]
    by_cases here : k = i
    · simp [here]
    · rw [if_neg here, h.asked k, next k]
      exact ⟨le_of_lt, fun le => lt_of_le_of_ne le (Ne.symm here)⟩
  · rw [phase_requestStop] at finished
    rw [stopRequested_requestStop]
    split
    · rfl
    · exact h.returned k finished
  · rw [phase_requestStop]
    exact done k ((joined_of_joining waits).mp joined)

theorem Step.inTurn (step : Step exec s a s') (h : s.InTurn) : s'.InTurn := by
  rcases step.teardown_cases with ⟨teardown, requests⟩ | ⟨alive, last, top, rfl⟩ |
    ⟨i, waits, finished, rfl⟩
  · exact h.quiet step teardown requests
  · have none_behind : ∀ k, ¬ last < k := fun k => not_lt_of_ge (top k)
    refine h.stop (fun k => ?_) fun k past => absurd past (none_behind k)
    simp [Asked, alive, none_behind k]
  · have done : ∀ k, i ≤ k → (s.workers k).phase = .finished := by
      intro k le
      rcases lt_or_eq_of_le le with past | rfl
      · exact h.joined k ((joined_of_joining waits).mpr past)
      · exact finished
    rcases s.joined_cases i with ⟨first, after⟩ | ⟨j, pred, after⟩
    · have all : ∀ k : Shard, i ≤ k := fun k => by
        rw [Fin.le_def, first]
        exact Nat.zero_le _
      rw [after]
      refine ⟨fun k => ?_, h.returned, fun k _ => done k (all k)⟩
      exact iff_of_true ((h.asked k).mpr ((asked_of_joining waits).mpr (all k))) (.inl rfl)
    · have behind : ∀ k : Shard, i ≤ k ↔ j < k := fun k => by
        rw [Fin.le_def, Fin.lt_def, pred]
        exact Iff.rfl
      rw [after]
      refine h.stop (fun k => ?_) fun k past => done k ((behind k).mpr past)
      rw [asked_of_joining waits, behind]

variable {shared : σ} {ts vs : List (PoolStep Q σ)}

theorem inTurn_of_run (run : PoolRun exec shared ts s) : s.InTurn :=
  run.invariant (inTurn_new shared) fun _ _ _ h step => step.inTurn h

theorem Step.stopRequested (step : Step exec s a s')
    (asked : (s.workers k).stopRequested = true) : (s'.workers k).stopRequested = true := by
  rcases step.teardown_cases with ⟨-, requests⟩ | ⟨-, last, -, rfl⟩ | ⟨i, -, -, rfl⟩
  · rw [requests, asked]
  · rw [stopRequested_requestStop, asked, ite_self]
  · rcases s.joined_cases i with ⟨-, after⟩ | ⟨j, -, after⟩
    · rw [after]
      exact asked
    · rw [after, stopRequested_requestStop, asked, ite_self]

section Bounds

/-- What a worker does that is asked to stop falls with each step it takes. -/
theorem Step.lefts (step : Step exec s a s') (asked : (s.workers k).stopRequested = true) :
    stepsLeft (s'.workers k).phase + (if PoolStep.ofWorker k ⟨s, a, s'⟩ then 1 else 0) ≤
        stepsLeft (s.workers k).phase ∧
      takesLeft (s'.workers k).phase +
          (if (PoolStep.polled k ⟨s, a, s'⟩).isSome then 1 else 0) ≤
        takesLeft (s.workers k).phase ∧
      runsLeft (s'.workers k).phase +
          (if (PoolStep.executed k ⟨s, a, s'⟩).isSome then 1 else 0) ≤
        runsLeft (s.workers k).phase := by
  rcases step.worker_cases k with ⟨same, other, takes, runs⟩ | ⟨rfl, phase, after⟩ |
    ⟨found, rfl, phase, after⟩ | ⟨call, rfl, phase, after⟩
  · simp [same, other, takes, runs]
  · simp [phase, after, afterTest, asked, stepsLeft, takesLeft, runsLeft, PoolStep.ofWorker,
      PoolStep.polled, PoolStep.executed]
  · cases found <;> simp [phase, after, afterPoll, stepsLeft, takesLeft, runsLeft,
      PoolStep.ofWorker, PoolStep.polled, PoolStep.executed]
  · simp [phase, after, stepsLeft, takesLeft, runsLeft, PoolStep.ofWorker,
      PoolStep.polled, PoolStep.executed]

theorem left_of_asked (later : Run (Step exec) s vs s')
    (asked : (s.workers k).stopRequested = true) :
    vs.countP (PoolStep.ofWorker k) ≤ stepsLeft (s.workers k).phase ∧
      (polled k vs).length ≤ takesLeft (s.workers k).phase ∧
      (executed k vs).length ≤ runsLeft (s.workers k).phase := by
  have keeps : ∀ (s : ThreadPool Q σ) a s', (s.workers k).stopRequested = true →
      Step exec s a s' → (s'.workers k).stopRequested = true :=
    fun _ _ _ asked step => step.stopRequested asked
  have steps := later.count_le (φ := fun s => stepsLeft (s.workers k).phase) keeps
    (fun _ _ _ asked step => (step.lefts asked).1) asked
  have takes : takesLeft (s'.workers k).phase +
      vs.countP (fun t => (PoolStep.polled k t).isSome) ≤ takesLeft (s.workers k).phase :=
    later.count_le (φ := fun s => takesLeft (s.workers k).phase) keeps
      (fun _ _ _ asked step => (step.lefts asked).2.1) asked
  have runs : runsLeft (s'.workers k).phase +
      vs.countP (fun t => (PoolStep.executed k t).isSome) ≤ runsLeft (s.workers k).phase :=
    later.count_le (φ := fun s => runsLeft (s.workers k).phase) keeps
      (fun _ _ _ asked step => (step.lefts asked).2.2) asked
  rw [polled, executed, List.length_filterMap_eq_countP, List.length_filterMap_eq_countP]
  exact ⟨Nat.le_trans (Nat.le_add_left _ _) steps, Nat.le_trans (Nat.le_add_left _ _) takes,
    Nat.le_trans (Nat.le_add_left _ _) runs⟩

omit [DecidableEq P] in
theorem bounds_of_phase (w : Worker P τ) :
    stepsLeft w.phase ≤ 3 ∧ w.inHand.length + takesLeft w.phase ≤ 1 ∧ runsLeft w.phase ≤ 1 := by
  unfold Worker.inHand
  cases w.phase <;> simp [stepsLeft, takesLeft, runsLeft]

/-- In every state the workers are stopped in their turn, and one that is asked to stop
takes at most three more steps, holds or takes at most one more task and runs at most one,
whatever the clients and the other workers do. -/
theorem stops_in_turn (run : PoolRun exec shared ts s) :
    s.InTurn ∧ ∀ k, (s.workers k).stopRequested = true → ∀ vs s', Run (Step exec) s vs s' →
      vs.countP (PoolStep.ofWorker k) ≤ 3 ∧
        (s.workers k).inHand.length + (polled k vs).length ≤ 1 ∧
        (executed k vs).length ≤ 1 := by
  refine ⟨inTurn_of_run run, fun k asked vs s' later => ?_⟩
  obtain ⟨steps, takes, runs⟩ := left_of_asked later asked
  obtain ⟨most, hand, once⟩ := bounds_of_phase (s.workers k)
  exact ⟨Nat.le_trans steps most, Nat.le_trans (Nat.add_le_add_left takes _) hand,
    Nat.le_trans runs once⟩

end Bounds

/-- The worker has taken a task that faults. -/
def Faulty (exec : τ → σ → Except ε σ) (s : ThreadPool Q σ) (k : Shard) : Prop :=
  ∃ call e, (s.workers k).phase = .running call ∧ exec call.task s.shared = .error e

section Completion

variable (answers : ∀ q : Q.State, ∃ found q', Q.tryDequeue found q q')
include answers

theorem exists_step (exec : τ → σ → Except ε σ) (s : ThreadPool Q σ)
    (runs : (s.workers k).phase ≠ .finished) :
    Faulty exec s k ∨ ∃ a s', Step exec s a s' ∧ PoolStep.ofWorker k ⟨s, a, s'⟩ = true ∧
      s'.teardown = s.teardown := by
  cases phase : (s.workers k).phase with
  | finished => exact absurd phase runs
  | testing => exact .inr ⟨_, _, .test k phase, by simp [PoolStep.ofWorker], rfl⟩
  | polling =>
      obtain ⟨found, q, got⟩ := answers (s.tasks k)
      exact .inr ⟨_, _, .poll k found phase got, by simp [PoolStep.ofWorker], rfl⟩
  | running call =>
      cases result : exec call.task s.shared with
      | error e => exact .inl ⟨call, e, phase, result⟩
      | ok shared => exact .inr ⟨_, _, .run k call phase result, by simp [PoolStep.ofWorker], rfl⟩

/-- A worker that is asked to stop can return by itself. -/
theorem exists_return (exec : τ → σ → Except ε σ) (s : ThreadPool Q σ)
    (asked : (s.workers k).stopRequested = true) :
    ∃ vs s', Run (Step exec) s vs s' ∧ vs.length ≤ stepsLeft (s.workers k).phase ∧
      s'.teardown = s.teardown ∧ ((s'.workers k).phase = .finished ∨ Faulty exec s' k) := by
  generalize left : stepsLeft (s.workers k).phase = n
  induction n using Nat.strong_induction_on generalizing s with
  | _ n ih =>
      subst left
      by_cases done : (s.workers k).phase = .finished
      · exact ⟨[], s, .start, Nat.zero_le _, rfl, .inl done⟩
      · rcases exists_step answers exec s done with faulty | ⟨a, s₁, step, own, same⟩
        · exact ⟨[], s, .start, Nat.zero_le _, rfl, .inr faulty⟩
        · have less := (step.lefts asked).1
          rw [own, if_pos rfl] at less
          obtain ⟨vs, s', run, short, place, ends⟩ :=
            ih _ less s₁ (step.stopRequested asked) rfl
          refine ⟨⟨s, a, s₁⟩ :: vs, s', (Run.start.snoc step).append run, ?_, place.trans same,
            ends⟩
          exact Nat.le_trans (Nat.succ_le_succ short) less

theorem exists_joins (exec : τ → σ → Except ε σ) (s : ThreadPool Q σ)
    (waits : s.teardown = .joining i) (asked : (s.workers i).stopRequested = true) :
    ∃ vs s', Run (Step exec) s vs s' ∧ vs.length ≤ 4 * (i.val + 1) ∧
      (s'.teardown = .destroyed ∨ ∃ k, Faulty exec s' k) := by
  generalize place : i.val = n
  induction n generalizing s i with
  | zero =>
      obtain ⟨vs, s₁, run, short, same, ends⟩ := exists_return answers exec s asked
      have most := (bounds_of_phase (s.workers i)).1
      rcases ends with finished | faulty
      · refine ⟨vs ++ [⟨s₁, .join i, s₁.joined i⟩], s₁.joined i,
          run.snoc (.join i (same.trans waits) finished), ?_, .inl ?_⟩
        · rw [List.length_append, List.length_singleton]
          omega
        · rw [joined, if_pos place]
      · exact ⟨vs, s₁, run, by omega, .inr ⟨i, faulty⟩⟩
  | succ n ih =>
      obtain ⟨vs, s₁, run, short, same, ends⟩ := exists_return answers exec s asked
      have most := (bounds_of_phase (s.workers i)).1
      rcases ends with finished | faulty
      · have step : Step exec s₁ (.join i) (s₁.joined i) := .join i (same.trans waits) finished
        rcases s₁.joined_cases i with ⟨first, -⟩ | ⟨j, pred, after⟩
        · omega
        · have next : (s₁.joined i).teardown = .joining j := by
            rw [after]
            rfl
          have told : ((s₁.joined i).workers j).stopRequested = true := by
            rw [after, stopRequested_requestStop, if_pos rfl]
          obtain ⟨ws, s', later, few, ends⟩ := ih (s₁.joined i) next told (by omega)
          refine ⟨vs ++ [⟨s₁, .join i, s₁.joined i⟩] ++ ws, s', (run.snoc step).append later, ?_,
            ends⟩
          simp only [List.length_append, List.length_singleton]
          omega
      · exact ⟨vs, s₁, run, by omega, .inr ⟨i, faulty⟩⟩

/-- From every state the destruction of the pool can be completed in seventeen steps, however
many tasks are queued; nothing but a task that faults keeps it from that. -/
theorem destruction_completes (run : PoolRun exec shared ts s) :
    ∃ vs s', PoolRun exec shared (ts ++ vs) s' ∧ vs.length ≤ 17 ∧
      ((s'.teardown = .destroyed ∧ ∀ k, (s'.workers k).phase = .finished) ∨
        ∃ k, Faulty exec s' k) := by
  have turn := inTurn_of_run run
  have complete : ∃ vs s', Run (Step exec) s vs s' ∧ vs.length ≤ 17 ∧
      (s'.teardown = .destroyed ∨ ∃ k, Faulty exec s' k) := by
    cases place : s.teardown with
    | destroyed => exact ⟨[], s, .start, Nat.zero_le _, .inl place⟩
    | joining i =>
        have asked := (turn.asked i).mpr ((asked_of_joining place).mpr le_rfl)
        obtain ⟨vs, s', later, few, ends⟩ := exists_joins answers exec s place asked
        have below : i.val < 4 := i.isLt
        exact ⟨vs, s', later, by omega, ends⟩
    | alive =>
        let last : Shard := Fin.last 3
        have step : Step exec s .destroy (s.requestStop last) := .destroy place
        have told : ((s.requestStop last).workers last).stopRequested = true := by
          rw [stopRequested_requestStop, if_pos rfl]
        obtain ⟨vs, s', later, few, ends⟩ :=
          exists_joins answers exec (s.requestStop last) rfl told
        refine ⟨⟨s, .destroy, _⟩ :: vs, s', (Run.start.snoc step).append later, ?_, ends⟩
        rw [List.length_cons]
        exact Nat.succ_le_succ few
  obtain ⟨vs, s', later, few, ends⟩ := complete
  have whole := Run.append run later
  refine ⟨vs, s', whole, few, ends.imp (fun destroyed => ?_) id⟩
  exact ⟨destroyed, fun k => (inTurn_of_run whole).joined k (.inl destroyed)⟩

end Completion

section Draining

def waiting (k : Shard) (ts : List (PoolStep Q σ)) : Nat :=
  (entered k ts).length - (polled k ts).length

/-- The steps of a worker in front of its next poll. -/
def phaseCost : Phase P τ → Nat
  | .running _ => 2
  | .testing => 1
  | _ => 0

/-- The steps that worker `k` has to take until its queue is empty. -/
def toDo (k : Shard) (ts : List (PoolStep Q σ)) (s : ThreadPool Q σ) : Nat :=
  3 * waiting k ts + phaseCost (s.workers k).phase

/-- No task waits on the shard, and its worker has none in its hand. -/
def Settled (s : ThreadPool Q σ) (k : Shard) : Prop :=
  (∀ p, Q.pending (s.tasks k) p = []) ∧ (s.workers k).inHand = []

variable (yields : ∀ q p, Q.pending q p ≠ [] → ∃ x q', Q.tryDequeue (some x) q q')
include yields

/-- A worker with something to do has a step that brings it further, unless its task
faults. -/
theorem exists_useful_step (run : PoolRun exec shared ts s)
    (alive : (s.workers k).stopRequested = false) (busy : ¬ Settled s k) :
    Faulty exec s k ∨ ∃ a s', Step exec s a s' ∧ PoolStep.ofWorker k ⟨s, a, s'⟩ = true ∧
      (s'.workers k).stopRequested = false ∧
      toDo k (ts ++ [⟨s, a, s'⟩]) s' < toDo k ts s := by
  unfold toDo waiting
  cases phase : (s.workers k).phase with
  | finished =>
      have asked := (inTurn_of_run run).returned k phase
      rw [alive] at asked
      cases asked
  | testing =>
      refine .inr ⟨_, _, .test k phase, by simp [PoolStep.ofWorker], ?_, ?_⟩
      · rw [stopRequested_setPhase, alive]
      · rw [phase_setPhase, if_pos rfl, entered_snoc, polled_snoc]
        simp [PoolStep.entered, PoolStep.polled, afterTest, alive, phaseCost]
  | polling =>
      have inHand : (s.workers k).inHand = [] := by simp [Worker.inHand, phase]
      obtain ⟨p, some_task⟩ : ∃ p, Q.pending (s.tasks k) p ≠ [] := by
        by_contra none_left
        exact busy ⟨fun p => Classical.not_not.mp fun h => none_left ⟨p, h⟩, inHand⟩
      obtain ⟨call, q, got⟩ := yields _ _ some_task
      have step : Step exec s (.poll k (some call)) _ := .poll k (some call) phase got
      have most := ((accounted_of_run (run.snoc step)).delivers k).subperm.length_le
      refine .inr ⟨_, _, step, by simp [PoolStep.ofWorker], ?_, ?_⟩
      · rw [stopRequested_setPhase, ← alive]
      · rw [entered_snoc, polled_snoc] at most ⊢
        simp only [PoolStep.entered, PoolStep.polled, if_true, Option.toList_none,
          Option.toList_some, List.append_nil, List.length_append, List.length_singleton]
          at most ⊢
        rw [phase_setPhase, if_pos rfl]
        simp only [afterPoll, phaseCost]
        omega
  | running call =>
      cases result : exec call.task s.shared with
      | error e => exact .inl ⟨call, e, phase, result⟩
      | ok shared =>
          refine .inr ⟨_, _, .run k call phase result, by simp [PoolStep.ofWorker], ?_, ?_⟩
          · rw [stopRequested_setPhase, ← alive]
          · rw [phase_setPhase, if_pos rfl, entered_snoc, polled_snoc]
            simp [PoolStep.entered, PoolStep.polled, phaseCost]

/-- A worker that is not asked to stop can empty its queue by itself. -/
theorem exists_drain (run : PoolRun exec shared ts s)
    (alive : (s.workers k).stopRequested = false) :
    ∃ vs s', Run (Step exec) s vs s' ∧ vs.length ≤ toDo k ts s ∧
      (∀ t ∈ vs, PoolStep.ofWorker k t = true) ∧ (Settled s' k ∨ Faulty exec s' k) := by
  generalize left : toDo k ts s = n
  induction n using Nat.strong_induction_on generalizing ts s with
  | _ n ih =>
      subst left
      by_cases done : Settled s k
      · exact ⟨[], s, .start, Nat.zero_le _, nofun, .inl done⟩
      · rcases exists_useful_step yields run alive done with faulty |
          ⟨a, s₁, step, own, still, less⟩
        · exact ⟨[], s, .start, Nat.zero_le _, nofun, .inr faulty⟩
        · obtain ⟨vs, s', later, short, all, ends⟩ := ih _ less (run.snoc step) still rfl
          refine ⟨⟨s, a, s₁⟩ :: vs, s', (Run.start.snoc step).append later, ?_, ?_, ends⟩
          · exact Nat.le_trans (Nat.succ_le_succ short) less
          · rw [List.forall_mem_cons]
            exact ⟨own, all⟩

end Draining

section Adding

private abbrev Adding : Type := ThreadPool (.perProducer Unit (Enqueued Unit Nat)) Nat

private def add (n total : Nat) : Except Empty Nat := .ok (total + n)

theorem stops_in_turn_two_tasks :
    ∃ ts, ∃ s : Adding, PoolRun add 0 ts s ∧ entered 3 ts = [⟨0, (), 5⟩, ⟨1, (), 7⟩] ∧
      (s.workers 3).phase = .polling ∧ s.InTurn ∧
      ∀ vs s', Run (Step add) s vs s' → (executed 3 vs).length ≤ 1 := by
  have new : PoolRun add 0 [] (new _ 0 : Adding) := .start
  have enqueued := (new.snoc (.enqueue () 3 5 (by decide) rfl)).snoc
    (.enqueue () 3 7 (by decide) rfl)
  have stopped := (enqueued.snoc (.test 3 rfl)).snoc (.destroy rfl)
  obtain ⟨turn, bounds⟩ := stops_in_turn stopped
  exact ⟨_, _, stopped, rfl, rfl, turn, fun vs s' later => (bounds 3 rfl vs s' later).2.2⟩

theorem destruction_completes_one_task :
    ∃ ts, ∃ s : Adding, PoolRun add 0 ts s ∧ s.teardown = .destroyed ∧
      ∀ k, (s.workers k).phase = .finished := by
  have new : PoolRun add 0 [] (new _ 0 : Adding) := .start
  have enqueued := new.snoc (.enqueue () 3 5 (by decide) rfl)
  obtain ⟨vs, s, run, -, ends⟩ :=
    destruction_completes (fun q => ⟨none, q, rfl⟩) enqueued
  refine ⟨_, s, run, ends.resolve_right ?_⟩
  rintro ⟨k, call, e, -, -⟩
  cases e

end Adding

end FastLittleMarket.ThreadPool
