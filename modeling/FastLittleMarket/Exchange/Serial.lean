import FastLittleMarket.Exchange.Exchange

/-!
The books of the exchange against sequential books. Whatever the interleaving, the book
of a symbol is the one that some merge of the clients' requests for the symbol leaves,
each client's requests up to some point and in the order it issued them.
-/

namespace FastLittleMarket

namespace OrderBook

def serve (requests : List Request) : Except BookFault OrderBook :=
  requests.foldlM (fun b request => (b.step request).map Prod.snd) new

theorem serve_snoc {requests : List Request} {request : Request} {b b' : OrderBook}
    {flags : ExecFlags} (before : serve requests = .ok b)
    (answer : b.step request = .ok (flags, b')) : serve (requests ++ [request]) = .ok b' := by
  unfold serve at before ⊢
  rw [List.foldlM_append, before]
  simp [Bind.bind, Except.bind, answer, Except.map, Pure.pure, Except.pure]

theorem cancelOrder_new (orderId : UInt64) : new.cancelOrder orderId = .ok (.rejected, new) := rfl

end OrderBook

namespace Exchange

open ThreadPool

section Tasks

variable {task : Task} {shards shards' : Shards}

theorem setBook_self (shard : Shard) (symbol : Symbol) (book : OrderBook) :
    setBook shards shard symbol book shard symbol = some book := by
  simp [setBook]

theorem setBook_of_ne {shard k : Shard} {symbol other : Symbol} (book : OrderBook)
    (h : k ≠ shard ∨ other ≠ symbol) :
    setBook shards shard symbol book k other = shards k other := by
  unfold setBook
  by_cases hk : k = shard
  · subst hk
    rw [Function.update_self, Function.update_of_ne (h.resolve_left fun ne => ne rfl)]
  · rw [Function.update_of_ne hk]

theorem run_of_ne (h : task.run shards = .ok shards') {k : Shard} {other : Symbol}
    (apart : k ≠ task.shard ∨ other ≠ task.symbol) : shards' k other = shards k other := by
  cases task with
  | newOrder symbol order shard =>
      unfold Task.run at h
      dsimp only at h
      split at h
      · cases h
      · cases h
        exact setBook_of_ne _ apart
  | cancelOrder symbol orderId shard =>
      unfold Task.run at h
      dsimp only at h
      split at h
      · cases h
        rfl
      · split at h
        · cases h
        · cases h
          exact setBook_of_ne _ apart

theorem run_answers (h : task.run shards = .ok shards') :
    ∃ flags, ((shards task.shard task.symbol).getD .new).step task.request =
      .ok (flags, (shards' task.shard task.symbol).getD .new) := by
  cases task with
  | newOrder symbol order shard =>
      unfold Task.run at h
      dsimp only at h
      split at h
      · cases h
      · rename_i flags book answer
        cases h
        refine ⟨flags, ?_⟩
        simp only [Task.shard, Task.symbol, Task.request, setBook_self, Option.getD_some]
        exact answer
  | cancelOrder symbol orderId shard =>
      unfold Task.run at h
      dsimp only at h
      split at h
      · rename_i absent
        cases h
        refine ⟨.rejected, ?_⟩
        simp only [Task.shard, Task.symbol, Task.request, absent, Option.getD_none]
        exact OrderBook.cancelOrder_new orderId
      · rename_i book present
        split at h
        · cases h
        · rename_i flags book' answer
          cases h
          refine ⟨flags, ?_⟩
          simp only [Task.shard, Task.symbol, Task.request, present, setBook_self,
            Option.getD_some]
          exact answer

end Tasks

variable {P : Type} [DecidableEq P] {Q : ConcurrentQueue P (Enqueued P Task)}
  {hash : Symbol → UInt64} {ts : List (PoolStep Q Shards)} {s s' : ThreadPool Q Shards}
  {a : Action P Task}

/-- The request for the symbol that a step issues, and its client. -/
def asked (symbol : Symbol) (t : PoolStep Q Shards) : Option (P × Request) :=
  match t.label with
  | .enqueue client _ task =>
      if task.symbol = symbol then some (client, task.request) else none
  | _ => none

/-- The requests for the symbol, in the order they were issued. -/
def issued (symbol : Symbol) (ts : List (PoolStep Q Shards)) : List (P × Request) :=
  ts.filterMap (asked symbol)

def requests (symbol : Symbol) (calls : List (Enqueued P Task)) : List (P × Request) :=
  (calls.filter fun call => call.task.symbol = symbol).map fun call =>
    (call.client, call.task.request)

theorem routed_of_entered (run : ExchangeRun hash ts s) {k : Shard} {call : Enqueued P Task}
    (hc : call ∈ entered k ts) : Routed hash k call.task := by
  obtain ⟨⟨before, label, after⟩, ht, entry⟩ := List.mem_filterMap.mp hc
  have step := run.step_of_mem ht
  cases label with
  | enqueue client shard task =>
      unfold PoolStep.entered at entry
      dsimp only at entry step
      split at entry
      · rename_i same
        cases entry
        rw [← same]
        exact step.routed
      · cases entry
  | _ => cases entry

/-- All requests for a symbol go to the symbol's shard. -/
theorem requests_entered (run : ExchangeRun hash ts s) (symbol : Symbol) :
    requests symbol (entered (getShard hash symbol) ts) = issued symbol ts := by
  induction run with
  | start => rfl
  | @snoc ts s s' a run step ih =>
      unfold requests issued at ih ⊢
      rw [entered_snoc, List.filter_append, List.map_append, ih, List.filterMap_append]
      congr 1
      cases a with
      | enqueue client shard task =>
          have home := step.routed.1
          by_cases h : task.symbol = symbol
          · have same : shard = getShard hash symbol := by rw [home, h]
            simp [PoolStep.entered, asked, h, same]
          · by_cases same : shard = getShard hash symbol <;>
              simp [PoolStep.entered, asked, h, same]
      | _ => rfl

/-- The books so far: on each shard those its tasks leave, and none of another shard's
symbols. -/
structure Serial (hash : Symbol → UInt64) (ts : List (PoolStep Q Shards))
    (s : ThreadPool Q Shards) : Prop where
  books : ∀ k symbol, OrderBook.serve ((requests symbol (executed k ts)).map Prod.snd) =
    .ok ((s.shared k symbol).getD .new)
  apart : ∀ k symbol, k ≠ getShard hash symbol → s.shared k symbol = none

theorem serial_of_run (run : ExchangeRun hash ts s) : Serial hash ts s := by
  induction run with
  | start => exact ⟨fun _ _ => rfl, fun _ _ _ => rfl⟩
  | @snoc ts s s' a run step ih =>
      rcases step.toPool.shared_cases with ⟨same, none⟩ | ⟨i, call, rfl, hand, returns⟩
      · refine ⟨?_, ?_⟩
        · intro k symbol
          rw [executed_snoc, none, same, Option.toList_none, List.append_nil]
          exact ih.books k symbol
        · intro k symbol away
          rw [same]
          exact ih.apart k symbol away
      · have accounted := accounted_of_run (ExchangeRun.toPool run)
        have entry := accounted.entered_of_polled (accounted.polled_of_running hand)
        obtain ⟨home, place⟩ := routed_of_entered run entry
        rw [← home] at place
        refine ⟨?_, ?_⟩
        · intro k symbol
          by_cases h : i = k ∧ call.task.symbol = symbol
          · obtain ⟨rfl, rfl⟩ := h
            obtain ⟨flags, answer⟩ := run_answers returns
            rw [place] at answer
            have served := OrderBook.serve_snoc (ih.books i call.task.symbol) answer
            rw [executed_snoc]
            simpa [PoolStep.executed, requests] using served
          · have other : requests symbol (executed k (ts ++ [⟨s, .run i call, s'⟩])) =
                requests symbol (executed k ts) := by
              rw [executed_snoc]
              by_cases hk : i = k
              · have ne : call.task.symbol ≠ symbol := fun e => h ⟨hk, e⟩
                simp [PoolStep.executed, requests, hk, ne]
              · simp [PoolStep.executed, requests, hk]
            have kept : s'.shared k symbol = s.shared k symbol := by
              refine run_of_ne returns ?_
              rw [place]
              by_cases hk : i = k
              · exact .inr fun e => h ⟨hk, e.symm⟩
              · exact .inl (Ne.symm hk)
            rw [other, kept]
            exact ih.books k symbol
        · intro k symbol away
          rw [run_of_ne returns, ih.apart k symbol away]
          by_cases hk : k = i
          · refine .inr ?_
            rintro rfl
            exact away (hk.trans home)
          · rw [place]
            exact .inl hk

theorem requests_filter (symbol : Symbol) (calls : List (Enqueued P Task)) (p : P) :
    (requests symbol calls).filter (fun r => r.1 = p) =
      requests symbol (calls.filter fun call => call.client = p) := by
  unfold requests
  rw [List.filter_map, List.filter_filter, List.filter_filter]
  congr 2
  funext call
  exact Bool.and_comm _ _

theorem requests_isPrefix {l m : List (Enqueued P Task)} (symbol : Symbol) (p : P)
    (h : l.filter (fun call => call.client = p) <+: m.filter fun call => call.client = p) :
    (requests symbol l).filter (fun r => r.1 = p) <+:
      (requests symbol m).filter fun r => r.1 = p := by
  rw [requests_filter, requests_filter]
  exact (h.filter _).map _

/-- In every state reached, the book of a symbol is the one some merge of prefixes of the
clients' requests for it leaves; no other shard has a book of the symbol; and a step that
does not run one of its tasks leaves its book as it is. -/
theorem symbol_serializable (run : ExchangeRun hash ts s) (symbol : Symbol) :
    (∃ merge : List (P × Request),
      (∀ p, merge.filter (fun r => r.1 = p) <+: (issued symbol ts).filter fun r => r.1 = p) ∧
        OrderBook.serve (merge.map Prod.snd) =
          .ok ((s.shared (getShard hash symbol) symbol).getD .new)) ∧
      (∀ k, k ≠ getShard hash symbol → s.shared k symbol = none) ∧
      ∀ t ∈ ts, (∀ i call, t.label = .run i call → call.task.symbol ≠ symbol) →
        ∀ k, t.after.shared k symbol = t.before.shared k symbol := by
  have serial := serial_of_run run
  have accounted := accounted_of_run run.toPool
  refine ⟨⟨requests symbol (executed (getShard hash symbol) ts), ?_, ?_⟩, ?_, ?_⟩
  · intro p
    rw [← requests_entered run symbol]
    refine requests_isPrefix symbol p ?_
    exact ((accounted.executed_prefix _).filter _).trans ((accounted.delivers _).isPrefix p)
  · exact serial.books _ symbol
  · exact fun k => serial.apart k symbol
  · intro t ht foreign k
    rcases (run.step_of_mem ht).toPool.shared_cases with ⟨same, -⟩ | ⟨i, call, label, -, returns⟩
    · rw [same]
    · exact run_of_ne returns (.inr (Ne.symm (foreign i call label)))

section TwoClients

abbrev TwoClients : Type := ThreadPool (.perProducer Bool (Enqueued Bool Task)) Shards

def bytesSum (symbol : Symbol) : UInt64 := symbol.foldl (fun sum c => sum + c.toUInt64) 0

def firstCall : Enqueued Bool Task := ⟨0, true, .newOrder [65] (.plain .buy 1 1 100 10) 1⟩

def secondCall : Enqueued Bool Task := ⟨1, false, .cancelOrder [65] (Order.pack 1 1) 1⟩

/-- One client submits a bid and another then cancels it. The worker takes the
cancellation first, which finds no book. -/
theorem overtaking_run :
    ∃ us t vs, ∃ s : TwoClients, ExchangeRun bytesSum (us ++ t :: vs) s ∧
      entered 1 us = [firstCall] ∧ PoolStep.entered 1 t = some secondCall ∧
      executed 1 (us ++ t :: vs) = [secondCall, firstCall] ∧
      issued [65] (us ++ t :: vs) =
        [(true, firstCall.task.request), (false, secondCall.task.request)] ∧
      (s.shared 1 [65]).map (fun b => b.orders .buy) = some [.plain .buy 1 1 100 10] := by
  have new : ExchangeRun bytesSum [] (new _ : TwoClients) := .start
  have submitted := new.snoc
    (.call true (.newOrder [65] (.plain .buy 1 1 100 10)) (.enqueue _ _ _ (by decide) rfl))
  have both := submitted.snoc
    (.call false (.cancelOrder [65] (Order.pack 1 1)) (.enqueue _ _ _ (by decide) rfl))
  have taken := (both.snoc (.pool (by simp) (.test 1 rfl))).snoc
    (.pool (by simp) (.poll 1 (some secondCall) rfl ⟨false, [], rfl, rfl⟩))
  have dropped := taken.snoc (.pool (by simp) (.run 1 _ rfl rfl))
  have late := (dropped.snoc (.pool (by simp) (.test 1 rfl))).snoc
    (.pool (by simp) (.poll 1 (some firstCall) rfl ⟨true, [], rfl, rfl⟩))
  have rests := late.snoc (.pool (by simp) (.run 1 _ rfl rfl))
  exact ⟨[_], _, [_, _, _, _, _, _], _, rests, rfl, rfl, rfl, rfl, by decide +kernel⟩

theorem symbol_serializable_two_clients :
    ∃ ts, ∃ s : TwoClients, ExchangeRun bytesSum ts s ∧
      issued [65] ts =
        [(true, firstCall.task.request), (false, secondCall.task.request)] ∧
      getShard bytesSum [65] = 1 ∧
      (s.shared 1 [65]).map (fun b => b.orders .buy) = some [.plain .buy 1 1 100 10] ∧
      (∃ merge : List (Bool × Request),
        (∀ p, merge.filter (fun r => r.1 = p) <+:
          (issued [65] ts).filter fun r => r.1 = p) ∧
        OrderBook.serve (merge.map Prod.snd) = .ok ((s.shared 1 [65]).getD .new)) ∧
      s.shared 2 [65] = none ∧
      ∀ t ∈ ts, (∀ i call, t.label = .run i call → call.task.symbol ≠ [65]) →
        ∀ k, t.after.shared k [65] = t.before.shared k [65] := by
  obtain ⟨us, t, vs, s, run, -, -, -, calls, bids⟩ := overtaking_run
  obtain ⟨serial, apart, frame⟩ := symbol_serializable run [65]
  exact ⟨_, s, run, calls, by decide, bids, serial, apart 2 (by decide), frame⟩

end TwoClients

end Exchange

end FastLittleMarket
