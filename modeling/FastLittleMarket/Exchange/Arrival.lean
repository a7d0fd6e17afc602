import FastLittleMarket.Exchange.Serial

/-!
The order of arrival. Two requests for a symbol are applied in the order they were
issued when one client issued both, or when the worker had taken the first before the
second was issued. Between clients nothing else orders them.
-/

namespace FastLittleMarket.Exchange

open ThreadPool

variable {P : Type} [DecidableEq P] {Q : ConcurrentQueue P (Enqueued P Task)}
  {hash : Symbol → UInt64} {s : ThreadPool Q Shards}

/-- A request that returned before another one for the symbol was issued is applied
before it, if both are of one client or the worker had taken the first by then. -/
theorem arrival_order_kept {us vs : List (PoolStep Q Shards)} {t : PoolStep Q Shards}
    (run : ExchangeRun hash (us ++ t :: vs) s) {j k : Shard} {a b : Enqueued P Task}
    (returned : a ∈ entered j us) (issues : PoolStep.entered k t = some b)
    (same : a.task.symbol = b.task.symbol) (ordered : a.client = b.client ∨ a ∈ polled j us) :
    Before a b (executed k (us ++ t :: vs)) := by
  have h := accounted_of_run (ExchangeRun.toPool run)
  have earlier := accounted_of_run (ExchangeRun.toPool run.split.1)
  have entry : entered k (us ++ t :: vs) = entered k us ++ b :: entered k vs := by
    unfold entered
    rw [List.filterMap_append, List.filterMap_cons_some issues]
  have first := (routed_of_entered run.split.1 returned).1
  have later : b ∈ entered k (us ++ t :: vs) := by simp [entry]
  have second := (routed_of_entered run later).1
  obtain rfl : j = k := by rw [first, second, same]
  refine before_of_prefix (h.executed_prefix j) ?_
  rcases ordered with mine | taken
  · exact (h.delivers j).first_out (h.once j) entry returned mine
  · rw [polled_append]
    refine before_append taken ?_ _
    intro out
    have once := h.once j
    rw [entry, List.nodup_middle, List.nodup_cons] at once
    exact once.1 (List.mem_append_left _ (earlier.entered_of_polled out))

private theorem taken_run :
    ∃ us t vs, ∃ s : TwoClients, ExchangeRun bytesSum (us ++ t :: vs) s ∧
      entered 1 us = [firstCall] ∧ PoolStep.entered 1 t = some secondCall ∧
      polled 1 us = [firstCall] ∧ executed 1 (us ++ t :: vs) = [firstCall, secondCall] := by
  have new : ExchangeRun bytesSum [] (new _ : TwoClients) := .start
  have submitted := new.snoc
    (.call true (.newOrder [65] (.plain .buy 1 1 100 10)) (.enqueue _ _ _ (by decide) rfl))
  have taken := (submitted.snoc (.pool (by simp) (.test 1 rfl))).snoc
    (.pool (by simp) (.poll 1 (some firstCall) rfl ⟨true, [], rfl, rfl⟩))
  have both := taken.snoc
    (.call false (.cancelOrder [65] (Order.pack 1 1)) (.enqueue _ _ _ (by decide) rfl))
  have rests := both.snoc (.pool (by simp) (.run 1 _ rfl rfl))
  have next := (rests.snoc (.pool (by simp) (.test 1 rfl))).snoc
    (.pool (by simp) (.poll 1 (some secondCall) rfl ⟨false, [], rfl, rfl⟩))
  have cancelled := next.snoc (.pool (by simp) (.run 1 _ rfl rfl))
  exact ⟨[_, _, _], _, [_, _, _, _], _, cancelled, rfl, rfl, rfl, rfl⟩

theorem arrival_order_kept_taken :
    ∃ ts, ∃ s : TwoClients, ExchangeRun bytesSum ts s ∧
      firstCall.client ≠ secondCall.client ∧ executed 1 ts = [firstCall, secondCall] ∧
      Before firstCall secondCall (executed 1 ts) := by
  obtain ⟨us, t, vs, s, run, returned, issues, taken, order⟩ := taken_run
  refine ⟨_, s, run, by decide, order, ?_⟩
  exact arrival_order_kept run (j := 1) (k := 1) (by simp [returned]) issues rfl
    (.inr (by simp [taken]))

/-- A cancellation issued after the order of another client reaches the book first. -/
theorem cancel_overtakes_order :
    ¬ ∀ (us vs : List (PoolStep (.perProducer Bool (Enqueued Bool Task)) Shards))
      (t : PoolStep (.perProducer Bool (Enqueued Bool Task)) Shards) (s : TwoClients),
      ExchangeRun bytesSum (us ++ t :: vs) s → ∀ (j k : Shard) (a b : Enqueued Bool Task),
        a ∈ entered j us → PoolStep.entered k t = some b → a.task.symbol = b.task.symbol →
          a.client ≠ b.client → Before a b (executed k (us ++ t :: vs)) := by
  intro h
  obtain ⟨us, t, vs, s, run, returned, issues, order, -⟩ := overtaking_run
  have before := h us vs t s run 1 1 firstCall secondCall (by simp [returned]) issues rfl
    (by decide)
  have mem := before [] [firstCall] order
  cases mem

end FastLittleMarket.Exchange
