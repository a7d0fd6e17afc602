import Mathlib.Algebra.GroupWithZero.Nat
import FastLittleMarket.Library.ConcurrentQueue
import FastLittleMarket.Library.Run

/-!
The thread pool: one queue and one worker for each shard. A worker tests its stop
token, tries to take a task, runs it and tests again. The destructor asks the
workers to stop and joins them one after the other, the last of the array first.

What a task does to the state the tasks share is a parameter. A task that does not
return leaves its worker where it is.
-/

namespace FastLittleMarket

/-- `NUM_SHARDS`. -/
def numShards : Nat := 4

instance : NeZero numShards := ⟨Nat.succ_ne_zero 3⟩

abbrev Shard := Fin numShards

/-- A task in a queue, with the call of `enqueue` that put it there. The number of the
call is history: the code has none. -/
structure Enqueued (P τ : Type) where
  number : Nat
  client : P
  task : τ
  deriving DecidableEq

/-- Where a worker stands in its loop. -/
inductive Phase (P τ : Type) where
  | testing
  | polling
  | running (call : Enqueued P τ)
  | finished

structure Worker (P τ : Type) where
  phase : Phase P τ
  stopRequested : Bool

/-- The task a worker has taken and not finished. -/
def Worker.inHand {P τ : Type} (w : Worker P τ) : List (Enqueued P τ) :=
  match w.phase with
  | .running call => [call]
  | _ => []

/-- Where the destructor stands: which worker it waits for. -/
inductive Teardown where
  | alive
  | joining (i : Shard)
  | destroyed
  deriving DecidableEq

variable {P τ : Type} [DecidableEq P]

structure ThreadPool (Q : ConcurrentQueue P (Enqueued P τ)) (σ : Type) where
  tasks : Shard → Q.State
  workers : Shard → Worker P τ
  teardown : Teardown
  shared : σ
  calls : Nat

/-- The steps of the pool's users, of its workers and of its destructor. -/
inductive Action (P τ : Type) where
  | enqueue (client : P) (shard : Shard) (task : τ)
  | test (i : Shard)
  | poll (i : Shard) (found : Option (Enqueued P τ))
  | run (i : Shard) (call : Enqueued P τ)
  | destroy
  | join (i : Shard)

namespace ThreadPool

variable {Q : ConcurrentQueue P (Enqueued P τ)} {σ ε : Type}

def new (Q : ConcurrentQueue P (Enqueued P τ)) (shared : σ) : ThreadPool Q σ where
  tasks _ := Q.empty
  workers _ := ⟨.testing, false⟩
  teardown := .alive
  shared := shared
  calls := 0

def setPhase (s : ThreadPool Q σ) (i : Shard) (phase : Phase P τ) : ThreadPool Q σ :=
  { s with workers := Function.update s.workers i { s.workers i with phase := phase } }

/-- The destructor turns to worker `i`: `request_stop`, then `join`. -/
def requestStop (s : ThreadPool Q σ) (i : Shard) : ThreadPool Q σ :=
  { s with
    workers := Function.update s.workers i { s.workers i with stopRequested := true }
    teardown := .joining i }

/-- What follows the join of worker `i`. -/
def joined (s : ThreadPool Q σ) (i : Shard) : ThreadPool Q σ :=
  if i.val = 0 then { s with teardown := .destroyed }
  else s.requestStop ⟨i.val - 1, Nat.lt_of_le_of_lt (Nat.sub_le _ _) i.isLt⟩

/-- The phase after the test of the loop condition. -/
def afterTest (w : Worker P τ) : Phase P τ := if w.stopRequested then .finished else .polling

/-- The phase after `try_dequeue`. -/
def afterPoll (found : Option (Enqueued P τ)) : Phase P τ :=
  match found with
  | none => .testing
  | some call => .running call

inductive Step (exec : τ → σ → Except ε σ) : ThreadPool Q σ → Action P τ → ThreadPool Q σ → Prop
  | enqueue {s : ThreadPool Q σ} {q : Q.State} (client : P) (shard : Shard) (task : τ)
      (live : s.teardown ≠ .destroyed)
      (put : Q.enqueue client ⟨s.calls, client, task⟩ (s.tasks shard) q) :
      Step exec s (.enqueue client shard task)
        { s with tasks := Function.update s.tasks shard q, calls := s.calls + 1 }
  | test {s : ThreadPool Q σ} (i : Shard) (phase : (s.workers i).phase = .testing) :
      Step exec s (.test i) (s.setPhase i (afterTest (s.workers i)))
  | poll {s : ThreadPool Q σ} {q : Q.State} (i : Shard) (found : Option (Enqueued P τ))
      (phase : (s.workers i).phase = .polling) (got : Q.tryDequeue found (s.tasks i) q) :
      Step exec s (.poll i found)
        ({ s with tasks := Function.update s.tasks i q }.setPhase i (afterPoll found))
  | run {s : ThreadPool Q σ} {shared : σ} (i : Shard) (call : Enqueued P τ)
      (phase : (s.workers i).phase = .running call)
      (returns : exec call.task s.shared = .ok shared) :
      Step exec s (.run i call) ({ s with shared := shared }.setPhase i .testing)
  | destroy {s : ThreadPool Q σ} (alive : s.teardown = .alive) :
      Step exec s .destroy (s.requestStop (Fin.last 3))
  | join {s : ThreadPool Q σ} (i : Shard) (waits : s.teardown = .joining i)
      (phase : (s.workers i).phase = .finished) : Step exec s (.join i) (s.joined i)

abbrev PoolStep (Q : ConcurrentQueue P (Enqueued P τ)) (σ : Type) :=
  Taken (ThreadPool Q σ) (Action P τ)

section History

variable (k : Shard)

/-- The call of `enqueue` on shard `k` that the step is. -/
def PoolStep.entered (t : PoolStep Q σ) : Option (Enqueued P τ) :=
  match t.label with
  | .enqueue client shard task =>
      if shard = k then some ⟨t.before.calls, client, task⟩ else none
  | _ => none

def PoolStep.polled (t : PoolStep Q σ) : Option (Enqueued P τ) :=
  match t.label with
  | .poll i found => if i = k then found else none
  | _ => none

def PoolStep.executed (t : PoolStep Q σ) : Option (Enqueued P τ) :=
  match t.label with
  | .run i call => if i = k then some call else none
  | _ => none

/-- The tasks enqueued on shard `k`, in the order of the calls. -/
def entered (ts : List (PoolStep Q σ)) : List (Enqueued P τ) := ts.filterMap (PoolStep.entered k)

/-- The tasks worker `k` has taken. -/
def polled (ts : List (PoolStep Q σ)) : List (Enqueued P τ) := ts.filterMap (PoolStep.polled k)

/-- The tasks worker `k` has run to their end. -/
def executed (ts : List (PoolStep Q σ)) : List (Enqueued P τ) := ts.filterMap (PoolStep.executed k)

variable {k}

private theorem filterMap_snoc {β γ : Type*} (f : β → Option γ) (l : List β) (x : β) :
    (l ++ [x]).filterMap f = l.filterMap f ++ (f x).toList := by
  rw [List.filterMap_append]
  cases h : f x <;> simp [h]

theorem entered_snoc (ts : List (PoolStep Q σ)) (t : PoolStep Q σ) :
    entered k (ts ++ [t]) = entered k ts ++ (PoolStep.entered k t).toList :=
  filterMap_snoc _ ts t

theorem polled_snoc (ts : List (PoolStep Q σ)) (t : PoolStep Q σ) :
    polled k (ts ++ [t]) = polled k ts ++ (PoolStep.polled k t).toList :=
  filterMap_snoc _ ts t

theorem executed_snoc (ts : List (PoolStep Q σ)) (t : PoolStep Q σ) :
    executed k (ts ++ [t]) = executed k ts ++ (PoolStep.executed k t).toList :=
  filterMap_snoc _ ts t

end History

section Phases

variable {s : ThreadPool Q σ} {i k : Shard}

@[simp] theorem tasks_setPhase (phase : Phase P τ) : (s.setPhase i phase).tasks = s.tasks := rfl

@[simp] theorem tasks_joined : (s.joined i).tasks = s.tasks := by
  unfold joined
  split <;> rfl

@[simp] theorem calls_joined : (s.joined i).calls = s.calls := by
  unfold joined
  split <;> rfl

@[simp] theorem shared_joined : (s.joined i).shared = s.shared := by
  unfold joined
  split <;> rfl

theorem inHand_setPhase (phase : Phase P τ) :
    ((s.setPhase i phase).workers k).inHand =
      if k = i then (Worker.mk phase false).inHand else (s.workers k).inHand := by
  by_cases h : k = i
  · subst h
    simp [setPhase, Worker.inHand]
  · simp [setPhase, h]

theorem inHand_setPhase_of_ne (hk : k ≠ i) (phase : Phase P τ) :
    ((s.setPhase i phase).workers k).inHand = (s.workers k).inHand := by
  rw [inHand_setPhase, if_neg hk]

@[simp] theorem inHand_requestStop :
    ((s.requestStop i).workers k).inHand = (s.workers k).inHand := by
  by_cases h : k = i
  · subst h
    simp [requestStop, Worker.inHand]
  · simp [requestStop, Function.update_of_ne h]

@[simp] theorem inHand_joined : ((s.joined i).workers k).inHand = (s.workers k).inHand := by
  unfold joined
  split
  · rfl
  · exact inHand_requestStop

end Phases

/-- The books of the pool. On each shard the queue delivers what entered to the worker,
which has run all it took but the task in its hand; calls have distinct numbers. -/
structure Accounted (ts : List (PoolStep Q σ)) (s : ThreadPool Q σ) : Prop where
  delivers : ∀ k, Delivers Enqueued.client (entered k ts) (polled k ts) (Q.pending (s.tasks k))
  inHand : ∀ k, polled k ts = executed k ts ++ (s.workers k).inHand
  numbered : ∀ k, ∀ call ∈ entered k ts, call.number < s.calls
  once : ∀ k, (entered k ts).Nodup

theorem accounted_new (shared : σ) : (new Q shared).Accounted [] where
  delivers _ := by
    simp only [new, funext Q.pending_empty]
    exact delivers_nil
  inHand _ := rfl
  numbered _ _ h := by cases h
  once _ := .nil

variable {exec : τ → σ → Except ε σ} {ts : List (PoolStep Q σ)} {s s' : ThreadPool Q σ}
  {a : Action P τ}

/-- A step on shard `i` leaves the books of the others as they are. -/
theorem Accounted.on_shard (h : s.Accounted ts) (i : Shard) (calls : s.calls ≤ s'.calls)
    (waiting : ∀ k, k ≠ i → Q.pending (s'.tasks k) = Q.pending (s.tasks k))
    (hands : ∀ k, k ≠ i → (s'.workers k).inHand = (s.workers k).inHand)
    (enters : ∀ k, k ≠ i → PoolStep.entered k ⟨s, a, s'⟩ = none)
    (polls : ∀ k, k ≠ i → PoolStep.polled k ⟨s, a, s'⟩ = none)
    (runs : ∀ k, k ≠ i → PoolStep.executed k ⟨s, a, s'⟩ = none)
    (delivers : Delivers Enqueued.client (entered i ts ++ (PoolStep.entered i ⟨s, a, s'⟩).toList)
      (polled i ts ++ (PoolStep.polled i ⟨s, a, s'⟩).toList) (Q.pending (s'.tasks i)))
    (inHand : polled i ts ++ (PoolStep.polled i ⟨s, a, s'⟩).toList =
      executed i ts ++ (PoolStep.executed i ⟨s, a, s'⟩).toList ++ (s'.workers i).inHand)
    (fresh : ∀ call ∈ PoolStep.entered i ⟨s, a, s'⟩, call.number = s.calls ∧ s.calls < s'.calls) :
    s'.Accounted (ts ++ [⟨s, a, s'⟩]) := by
  refine ⟨?_, ?_, ?_, ?_⟩ <;> intro k
  · rw [entered_snoc, polled_snoc]
    by_cases hk : k = i
    · subst hk
      exact delivers
    · rw [enters k hk, polls k hk, waiting k hk]
      simpa using h.delivers k
  · rw [polled_snoc, executed_snoc]
    by_cases hk : k = i
    · subst hk
      exact inHand
    · rw [polls k hk, runs k hk, hands k hk]
      simpa using h.inHand k
  · intro call hc
    rw [entered_snoc, List.mem_append, Option.mem_toList] at hc
    rcases hc with old | new
    · exact Nat.lt_of_lt_of_le (h.numbered k call old) calls
    · by_cases hk : k = i
      · subst hk
        obtain ⟨number, grows⟩ := fresh call new
        rwa [number]
      · rw [enters k hk] at new
        cases new
  · rw [entered_snoc]
    refine List.nodup_append.mpr ⟨h.once k, Option.toList_nodup _, ?_⟩
    rintro call old _ new rfl
    rw [Option.mem_toList] at new
    by_cases hk : k = i
    · subst hk
      have below := h.numbered k call old
      rw [(fresh call new).1] at below
      exact Nat.lt_irrefl _ below
    · rw [enters k hk] at new
      cases new

/-- A step that moves no task: nothing enters, is taken or is run to its end. -/
theorem Accounted.idle (h : s.Accounted ts)
    (waiting : ∀ k, Q.pending (s'.tasks k) = Q.pending (s.tasks k)) (calls : s'.calls = s.calls)
    (hands : ∀ k, (s'.workers k).inHand = (s.workers k).inHand)
    (enters : ∀ k, PoolStep.entered k ⟨s, a, s'⟩ = none)
    (polls : ∀ k, PoolStep.polled k ⟨s, a, s'⟩ = none)
    (runs : ∀ k, PoolStep.executed k ⟨s, a, s'⟩ = none) :
    s'.Accounted (ts ++ [⟨s, a, s'⟩]) := by
  -- any shard will do
  apply h.on_shard 0 (Nat.le_of_eq calls.symm) (fun k _ => waiting k) (fun k _ => hands k)
    (fun k _ => enters k) (fun k _ => polls k) (fun k _ => runs k)
  · rw [enters, polls, waiting]
    simpa using h.delivers 0
  · rw [polls, runs, hands]
    simpa using h.inHand 0
  · intro call entered
    rw [enters] at entered
    cases entered

theorem Accounted.enqueue (h : s.Accounted ts) {q : Q.State} {client : P} {shard : Shard} {task : τ}
    (put : Q.enqueue client ⟨s.calls, client, task⟩ (s.tasks shard) q)
    (after : s' = { s with tasks := Function.update s.tasks shard q, calls := s.calls + 1 }) :
    s'.Accounted (ts ++ [⟨s, .enqueue client shard task, s'⟩]) := by
  subst after
  apply h.on_shard shard
  · exact Nat.le_succ _
  · intro k hk
    simp [Function.update_of_ne hk]
  · exact fun _ _ => rfl
  · intro k hk
    simp [PoolStep.entered, hk.symm]
  · exact fun _ _ => rfl
  · exact fun _ _ => rfl
  · have pending := Q.pending_enqueue _ _ _ _ put
    simpa [PoolStep.entered, PoolStep.polled, pending] using (h.delivers shard).enter rfl
  · simpa [PoolStep.polled, PoolStep.executed] using h.inHand shard
  · intro call entered
    simp only [PoolStep.entered, if_true, Option.mem_some_iff] at entered
    subst entered
    exact ⟨rfl, Nat.lt_succ_self _⟩

theorem Accounted.test (h : s.Accounted ts) {i : Shard} (phase : (s.workers i).phase = .testing)
    (after : s' = s.setPhase i (afterTest (s.workers i))) :
    s'.Accounted (ts ++ [⟨s, .test i, s'⟩]) := by
  subst after
  refine h.idle (fun _ => rfl) rfl ?_ (fun _ => rfl) (fun _ => rfl) (fun _ => rfl)
  intro k
  rw [inHand_setPhase]
  split
  · rename_i hk
    subst hk
    unfold afterTest
    split <;> simp [Worker.inHand, phase]
  · rfl

/-- The queue has nothing for the worker. -/
theorem Accounted.miss (h : s.Accounted ts) {q : Q.State} {i : Shard}
    (phase : (s.workers i).phase = .polling) (got : Q.tryDequeue none (s.tasks i) q)
    (after : s' = { s with tasks := Function.update s.tasks i q }.setPhase i .testing) :
    s'.Accounted (ts ++ [⟨s, .poll i none, s'⟩]) := by
  subst after
  refine h.idle ?_ rfl ?_ (fun _ => rfl) (fun _ => by simp [PoolStep.polled]) (fun _ => rfl)
  · intro k
    have same := Q.pending_miss _ _ got
    by_cases hk : k = i
    · subst hk
      simp [same]
    · simp [Function.update_of_ne hk]
  · intro k
    rw [inHand_setPhase]
    split
    · rename_i hk
      simp [hk, Worker.inHand, phase]
    · rfl

/-- The worker takes a task off its queue. -/
theorem Accounted.take (h : s.Accounted ts) {q : Q.State} {i : Shard} {call : Enqueued P τ}
    (phase : (s.workers i).phase = .polling) (got : Q.tryDequeue (some call) (s.tasks i) q)
    (after : s' = { s with tasks := Function.update s.tasks i q }.setPhase i (.running call)) :
    s'.Accounted (ts ++ [⟨s, .poll i (some call), s'⟩]) := by
  subst after
  apply h.on_shard i
  · exact Nat.le_refl _
  · intro k hk
    simp [Function.update_of_ne hk]
  · exact fun k hk => inHand_setPhase_of_ne hk _
  · exact fun _ _ => rfl
  · intro k hk
    simp [PoolStep.polled, hk.symm]
  · exact fun _ _ => rfl
  · obtain ⟨p, rest, front, pending⟩ := Q.pending_dequeue _ _ _ got
    simpa [PoolStep.entered, PoolStep.polled, pending] using (h.delivers i).leave front
  · have before := h.inHand i
    simp only [Worker.inHand, phase, List.append_nil] at before
    rw [inHand_setPhase, before]
    simp [PoolStep.polled, PoolStep.executed, Worker.inHand]
  · intro call entered
    cases entered

/-- The worker runs its task to the end. -/
theorem Accounted.finish (h : s.Accounted ts) {shared : σ} {i : Shard} {call : Enqueued P τ}
    (phase : (s.workers i).phase = .running call)
    (after : s' = { s with shared := shared }.setPhase i .testing) :
    s'.Accounted (ts ++ [⟨s, .run i call, s'⟩]) := by
  subst after
  apply h.on_shard i
  · exact Nat.le_refl _
  · exact fun _ _ => rfl
  · exact fun k hk => inHand_setPhase_of_ne hk _
  · exact fun _ _ => rfl
  · exact fun _ _ => rfl
  · intro k hk
    simp [PoolStep.executed, hk.symm]
  · simpa [PoolStep.entered, PoolStep.polled] using h.delivers i
  · have before := h.inHand i
    simp only [Worker.inHand, phase] at before
    rw [inHand_setPhase, before]
    simp [PoolStep.polled, PoolStep.executed, Worker.inHand]
  · intro call entered
    cases entered

theorem Step.accounted (step : Step exec s a s') (h : s.Accounted ts) :
    s'.Accounted (ts ++ [⟨s, a, s'⟩]) := by
  cases step with
  | enqueue client shard task live put => exact h.enqueue put rfl
  | test i phase => exact h.test phase rfl
  | poll i found phase got =>
      cases found with
      | none => exact h.miss phase got rfl
      | some call => exact h.take phase got rfl
  | run i call phase returns => exact h.finish phase rfl
  | destroy alive =>
      exact h.idle (fun _ => rfl) rfl (fun _ => inHand_requestStop) (fun _ => rfl) (fun _ => rfl)
        (fun _ => rfl)
  | join i waits phase =>
      exact h.idle (fun _ => by rw [tasks_joined]) calls_joined (fun _ => inHand_joined)
        (fun _ => rfl) (fun _ => rfl) (fun _ => rfl)

/-- Only a task run to its end changes the shared state. -/
theorem Step.shared_cases (step : Step exec s a s') :
    (s'.shared = s.shared ∧ ∀ k, PoolStep.executed k ⟨s, a, s'⟩ = none) ∨
      ∃ i call, a = .run i call ∧ (s.workers i).phase = .running call ∧
        exec call.task s.shared = .ok s'.shared := by
  cases step with
  | enqueue client shard task live put => exact .inl ⟨rfl, fun _ => rfl⟩
  | test i phase => exact .inl ⟨rfl, fun _ => rfl⟩
  | poll i found phase got => exact .inl ⟨rfl, fun _ => rfl⟩
  | run i call phase returns => exact .inr ⟨i, call, rfl, phase, returns⟩
  | destroy alive => exact .inl ⟨rfl, fun _ => rfl⟩
  | join i waits phase => exact .inl ⟨shared_joined, fun _ => rfl⟩

abbrev PoolRun (exec : τ → σ → Except ε σ) (shared : σ) (ts : List (PoolStep Q σ))
    (s : ThreadPool Q σ) : Prop :=
  Run (Step exec) (new Q shared) ts s

theorem accounted_of_run {shared : σ} (run : PoolRun exec shared ts s) : s.Accounted ts :=
  run.invariant_of (G := fun _ => True) (I := fun ts s => s.Accounted ts) (accounted_new shared)
    (fun _ _ _ _ _ h step _ => step.accounted h) (fun _ _ => trivial)

namespace Accounted

variable {k : Shard} {call : Enqueued P τ}

theorem executed_prefix (h : s.Accounted ts) (k : Shard) : executed k ts <+: polled k ts :=
  ⟨_, (h.inHand k).symm⟩

theorem polled_nodup (h : s.Accounted ts) (k : Shard) : (polled k ts).Nodup :=
  (h.delivers k).nodup (h.once k)

theorem polled_of_running (h : s.Accounted ts) (hand : (s.workers k).phase = .running call) :
    call ∈ polled k ts := by
  rw [h.inHand k]
  simp [Worker.inHand, hand]

theorem entered_of_polled (h : s.Accounted ts) (out : call ∈ polled k ts) :
    call ∈ entered k ts :=
  ((h.delivers k).mem_iff call).mpr (.inl out)

end Accounted

/-- `x` is in the list, and at one place only. -/
def ExactlyOnce {β : Type*} (x : β) (l : List β) : Prop :=
  ∃ before after, l = before ++ x :: after ∧ x ∉ before ++ after

theorem exactlyOnce_of_nodup {β : Type*} {x : β} {l : List β} (h : l.Nodup) (hx : x ∈ l) :
    ExactlyOnce x l := by
  obtain ⟨before, after, rfl⟩ := List.append_of_mem hx
  rw [List.nodup_middle, List.nodup_cons] at h
  exact ⟨before, after, rfl, h.1⟩

theorem polled_append (k : Shard) (us vs : List (PoolStep Q σ)) :
    polled k (us ++ vs) = polled k us ++ polled k vs :=
  List.filterMap_append

theorem entered_append (k : Shard) (us vs : List (PoolStep Q σ)) :
    entered k (us ++ vs) = entered k us ++ entered k vs :=
  List.filterMap_append

/-- Once all workers have terminated, every task that was enqueued has been executed
exactly once, or never and is still in its queue; and one that had left its queue when
the destruction began has been executed. -/
theorem shutdown_accounts {shared : σ} (run : PoolRun exec shared ts s)
    (finished : ∀ k, (s.workers k).phase = .finished) :
    (∀ k, ∀ call ∈ entered k ts,
      (ExactlyOnce call (executed k ts) ∧ call ∉ Q.pending (s.tasks k) call.client) ∨
        (call ∉ executed k ts ∧ call ∈ Q.pending (s.tasks k) call.client)) ∧
      ∀ us t vs, ts = us ++ t :: vs → t.label = .destroy → ∀ k, ∀ call ∈ entered k us,
        call ∉ Q.pending (t.before.tasks k) call.client → ExactlyOnce call (executed k ts) := by
  have h := accounted_of_run run
  have all_run : ∀ k, executed k ts = polled k ts := by
    intro k
    rw [h.inHand k]
    simp [Worker.inHand, finished k]
  refine ⟨?_, ?_⟩
  · intro k call hc
    rw [all_run k]
    rcases ((h.delivers k).mem_iff call).mp hc with out | waiting
    · exact .inl ⟨exactlyOnce_of_nodup (h.polled_nodup k) out,
        (h.delivers k).notMem_pending (h.once k) out⟩
    · exact .inr ⟨fun out => (h.delivers k).notMem_pending (h.once k) out waiting, waiting⟩
  · rintro us t vs rfl - k call hc gone
    have before := accounted_of_run run.split.1
    have out := (((before.delivers k).mem_iff call).mp hc).resolve_right gone
    rw [all_run k]
    refine exactlyOnce_of_nodup (h.polled_nodup k) ?_
    rw [polled_append]
    exact List.mem_append_left _ out

section Shutdown

private abbrev Counter : Type := ThreadPool (.perProducer Unit (Enqueued Unit Nat)) Nat

private def count (n total : Nat) : Except Empty Nat := .ok (total + n)

/-- Two tasks on shard 0, of which its worker has run the first when the destruction
begins. -/
private theorem shutdown_run :
    ∃ us t vs, ∃ s : Counter, PoolRun count 0 (us ++ t :: vs) s ∧
      (∀ k, (s.workers k).phase = .finished) ∧ t.label = .destroy ∧
      entered 0 us = [⟨0, (), 5⟩, ⟨1, (), 7⟩] ∧
      executed 0 (us ++ t :: vs) = [⟨0, (), 5⟩] ∧ t.before.tasks 0 () = [⟨1, (), 7⟩] := by
  have new : PoolRun count 0 [] (new _ 0 : Counter) := .start
  have enqueued := (new.snoc (.enqueue () 0 5 (by decide) rfl)).snoc
    (.enqueue () 0 7 (by decide) rfl)
  have ran := ((enqueued.snoc (.test 0 rfl)).snoc
    (.poll 0 (some ⟨0, (), 5⟩) rfl ⟨(), _, rfl, rfl⟩)).snoc (.run 0 _ rfl rfl)
  have joined_three := ((ran.snoc (.destroy rfl)).snoc (.test 3 rfl)).snoc (.join 3 rfl rfl)
  have joined_two := (joined_three.snoc (.test 2 rfl)).snoc (.join 2 rfl rfl)
  have joined_one := (joined_two.snoc (.test 1 rfl)).snoc (.join 1 rfl rfl)
  have joined_all := (joined_one.snoc (.test 0 rfl)).snoc (.join 0 rfl rfl)
  refine ⟨[_, _, _, _, _], ⟨_, .destroy, _⟩, [_, _, _, _, _, _, _, _], _, joined_all, ?_,
    rfl, rfl, rfl, rfl⟩
  intro k
  match k with
  | 0 => rfl
  | 1 => rfl
  | 2 => rfl
  | 3 => rfl

theorem shutdown_accounts_two_tasks :
    ∃ ts, ∃ s : Counter, PoolRun count 0 ts s ∧ ExactlyOnce ⟨0, (), 5⟩ (executed 0 ts) ∧
      ⟨1, (), 7⟩ ∉ executed 0 ts ∧ ⟨1, (), 7⟩ ∈ s.tasks 0 () := by
  obtain ⟨us, t, vs, s, run, finished, begins, entry, ran, left⟩ := shutdown_run
  have accounts := shutdown_accounts run finished
  refine ⟨_, s, run, ?_, ?_⟩
  · refine accounts.2 us t vs rfl begins 0 ⟨0, (), 5⟩ (by simp [entry]) ?_
    change _ ∉ t.before.tasks 0 ()
    simp [left]
  · rcases accounts.1 0 ⟨1, (), 7⟩ (by simp [entered_append, entry]) with
      ⟨once, -⟩ | ⟨never, waits⟩
    · obtain ⟨l, r, split, -⟩ := once
      have mem : (⟨1, (), 7⟩ : Enqueued Unit Nat) ∈ executed 0 (us ++ t :: vs) := by simp [split]
      simp [ran] at mem
    · exact ⟨never, waits⟩

/-- A task accepted before the destruction is abandoned in its queue. -/
theorem shutdown_abandons_task :
    ¬ ∀ (ts : List (PoolStep (.perProducer Unit (Enqueued Unit Nat)) Nat)) (s : Counter),
      PoolRun count 0 ts s → (∀ k, (s.workers k).phase = .finished) →
        ∀ us t vs, ts = us ++ t :: vs → t.label = .destroy → ∀ k, ∀ call ∈ entered k us,
          ExactlyOnce call (executed k ts) := by
  intro h
  obtain ⟨us, t, vs, s, run, finished, begins, entry, ran, -⟩ := shutdown_run
  obtain ⟨l, r, split, -⟩ :=
    h _ s run finished us t vs rfl begins 0 ⟨1, (), 7⟩ (by simp [entry])
  have mem : (⟨1, (), 7⟩ : Enqueued Unit Nat) ∈ executed 0 (us ++ t :: vs) := by simp [split]
  simp [ran] at mem

end Shutdown

end ThreadPool

end FastLittleMarket
