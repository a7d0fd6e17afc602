import FastLittleMarket.Book.Commute
import FastLittleMarket.Book.Stamps
import FastLittleMarket.Exchange.Serial
import FastLittleMarket.Exchange.Workers

/-!
Queries. `getOrder` reads the symbol's book from the caller's thread, so its answer is
that of the code only while no worker changes the book.

Once the symbol's shard has settled, every request for the symbol has been applied. The
book is then the one of a merge of the clients' requests, and where no order crosses
another the merge does not matter.
-/

namespace FastLittleMarket

namespace Request

def submits : Request → Option Order
  | .newOrder order => some order
  | _ => none

theorem submits_newOrders (os : List Order) : (os.map newOrder).filterMap submits = os := by
  rw [List.filterMap_map]
  exact List.filterMap_some

theorem exists_newOrders {requests : List Request} {os : List Order}
    (h : requests.Perm (os.map .newOrder)) :
    ∃ os' : List Order, requests = os'.map .newOrder ∧ os'.Perm os := by
  refine ⟨requests.filterMap submits, ?_, ?_⟩
  · have all : ∀ request ∈ requests, ∃ o, request = .newOrder o := by
      intro request mem
      obtain ⟨o, -, rfl⟩ := List.mem_map.mp (h.mem_iff.mp mem)
      exact ⟨o, rfl⟩
    clear h
    induction requests with
    | nil => rfl
    | cons request requests ih =>
        obtain ⟨o, rfl⟩ := all request List.mem_cons_self
        have later := ih fun r hr => all r (List.mem_cons_of_mem _ hr)
        have first : (newOrder o).submits = some o := rfl
        rw [List.filterMap_cons_some first, List.map_cons, ← later]
  · have same := h.filterMap submits
    rwa [submits_newOrders] at same

end Request

namespace OrderBook

theorem serve_append_inv {requests : List Request} {request : Request} {b' : OrderBook}
    (served : serve (requests ++ [request]) = .ok b') :
    ∃ b flags, serve requests = .ok b ∧ b.step request = .ok (flags, b') := by
  unfold serve at served
  rw [List.foldlM_append] at served
  change (serve requests >>= _) = _ at served
  cases before : serve requests with
  | error e =>
      rw [before] at served
      cases served
  | ok b =>
      rw [before] at served
      simp only [Bind.bind, Except.bind, List.foldlM_cons, List.foldlM_nil] at served
      cases answer : b.step request with
      | error e =>
          rw [answer] at served
          cases served
      | ok r =>
          rw [answer] at served
          cases served
          exact ⟨b, r.1, rfl, answer⟩

theorem submitted_direct {t : BookStep} (direct : t.label.1.Direct) :
    t.submitted = t.label.1.submits := by
  obtain ⟨b, ⟨request, flags⟩, b'⟩ := t
  cases request with
  | newOrder order => rfl
  | cancelOrder orderId => rfl
  | modifyOrder orderId newPriceQ4 newVolume sequencer unset => cases direct

/-- The requests of a serial book are those of a run. -/
theorem run_of_serve {requests : List Request} {b : OrderBook}
    (served : serve requests = .ok b) (direct : ∀ request ∈ requests, request.Direct) :
    ∃ ts, BookRun ts b ∧ ts.filterMap BookStep.submitted = requests.filterMap Request.submits := by
  induction requests using List.reverseRecOn generalizing b with
  | nil =>
      cases served
      exact ⟨[], .start, rfl⟩
  | append_singleton requests request ih =>
      obtain ⟨before, flags, earlier, answer⟩ := serve_append_inv served
      obtain ⟨ts, run, same⟩ := ih earlier fun r hr => direct r (List.mem_append_left _ hr)
      have answers : before.Answers (request, flags) b := answer
      refine ⟨ts ++ [⟨before, (request, flags), b⟩], run.snoc answers, ?_⟩
      have last := submitted_direct (t := ⟨before, (request, flags), b⟩)
        (direct request (by simp))
      rw [submitted_snoc, same, last, List.filterMap_append]
      cases request <;> rfl

theorem serve_newOrders {os : List Order} {flags : List ExecFlags} {b : OrderBook}
    (submitted : new.submitAll os = .ok (flags, b)) : serve (os.map .newOrder) = .ok b := by
  unfold serve
  generalize new = c at submitted
  induction os generalizing c flags with
  | nil =>
      cases submitted
      rfl
  | cons o os ih =>
      simp only [submitAll] at submitted
      split at submitted
      · cases submitted
      · rename_i first c' answer
        split at submitted
        · cases submitted
        · rename_i later b' rest
          cases submitted
          have next := ih c' rest
          simpa only [List.map_cons, List.foldlM_cons, step, answer, Except.map, Bind.bind,
            Except.bind] using next

end OrderBook

namespace Exchange

open ThreadPool

def getOrder (hash : Symbol → UInt64) (shards : Shards) (symbol : Symbol) (orderId : UInt64) :
    Except BookFault (Option Order) :=
  let shard := getShard hash symbol
  match shards shard symbol with
  | some book => book.getOrder orderId
  | none => .ok none

/-- The book of the symbol, an empty one where there is none. -/
def bookOf (hash : Symbol → UInt64) (shards : Shards) (symbol : Symbol) : OrderBook :=
  (shards (getShard hash symbol) symbol).getD .new

theorem getOrder_eq (hash : Symbol → UInt64) (shards : Shards) (symbol : Symbol)
    (orderId : UInt64) :
    getOrder hash shards symbol orderId = (bookOf hash shards symbol).getOrder orderId := by
  unfold getOrder bookOf
  dsimp only
  cases shards (getShard hash symbol) symbol with
  | none => rfl
  | some book => rfl

theorem run_cancelOrder {hash : Symbol → UInt64} {shards : Shards} {symbol : Symbol}
    {orderId : UInt64} {flags : ExecFlags} {book : OrderBook}
    (answer : (bookOf hash shards symbol).cancelOrder orderId = .ok (flags, book)) :
    ∃ shards', (cancelOrder hash symbol orderId).1.run shards = .ok shards' ∧
      bookOf hash shards' symbol = book := by
  unfold bookOf cancelOrder Task.run at *
  dsimp only
  cases present : shards (getShard hash symbol) symbol with
  | none =>
      rw [present, Option.getD_none, OrderBook.cancelOrder_new] at answer
      cases answer
      exact ⟨shards, rfl, by rw [present, Option.getD_none]⟩
  | some held =>
      rw [present, Option.getD_some] at answer
      simp only [answer]
      exact ⟨_, rfl, by rw [setBook_self, Option.getD_some]⟩

theorem direct_request (task : Task) : task.request.Direct := by
  cases task <;> trivial

section Runs

variable {P : Type} [DecidableEq P] {Q : ConcurrentQueue P (Enqueued P Task)}
  {hash : Symbol → UInt64} {ts : List (PoolStep Q Shards)} {s : ThreadPool Q Shards}

def submissions (symbol : Symbol) (ts : List (PoolStep Q Shards)) : List Order :=
  (issued symbol ts).filterMap fun r => r.2.submits

omit [DecidableEq P] in
theorem requests_perm {l m : List (Enqueued P Task)} (symbol : Symbol) (h : l.Perm m) :
    (requests symbol l).Perm (requests symbol m) :=
  (h.filter _).map _

omit [DecidableEq P] in
theorem requests_subperm {l m : List (Enqueued P Task)} (symbol : Symbol) (h : l.Subperm m) :
    (requests symbol l).Subperm (requests symbol m) := by
  obtain ⟨l', perm, sub⟩ := h
  exact ⟨requests symbol l', requests_perm symbol perm, (sub.filter _).map _⟩

omit [DecidableEq P] in
theorem direct_requests {symbol : Symbol} {calls : List (Enqueued P Task)} {request : Request}
    (mem : request ∈ (requests symbol calls).map Prod.snd) : request.Direct := by
  obtain ⟨r, hr, rfl⟩ := List.mem_map.mp mem
  obtain ⟨call, -, rfl⟩ := List.mem_map.mp hr
  exact direct_request call.task

theorem executed_of_settled (run : ExchangeRun hash ts s) {k : Shard} (settled : Settled s k) :
    executed k ts = polled k ts := by
  have inHand := (accounted_of_run run.toPool).inHand k
  rw [settled.2, List.append_nil] at inHand
  exact inHand.symm

theorem requests_filter_of_settled (run : ExchangeRun hash ts s) (symbol : Symbol)
    (settled : Settled s (getShard hash symbol)) (p : P) :
    (requests symbol (executed (getShard hash symbol) ts)).filter (fun r => r.1 = p) =
      (issued symbol ts).filter fun r => r.1 = p := by
  have delivers := (accounted_of_run run.toPool).delivers (getShard hash symbol) p
  rw [settled.1 p, List.append_nil] at delivers
  rw [executed_of_settled run settled, ← requests_entered run symbol, requests_filter,
    requests_filter, delivers]

theorem applied_subperm (run : ExchangeRun hash ts s) (symbol : Symbol) :
    (requests symbol (executed (getShard hash symbol) ts)).Subperm (issued symbol ts) := by
  have accounted := accounted_of_run run.toPool
  rw [← requests_entered run symbol]
  refine requests_subperm symbol ?_
  exact (accounted.executed_prefix _).sublist.subperm.trans (accounted.delivers _).subperm

theorem applied_perm_of_settled (run : ExchangeRun hash ts s) (symbol : Symbol)
    (settled : Settled s (getShard hash symbol)) :
    (requests symbol (executed (getShard hash symbol) ts)).Perm (issued symbol ts) := by
  have accounted := accounted_of_run run.toPool
  rw [executed_of_settled run settled, ← requests_entered run symbol]
  exact requests_perm symbol ((accounted.delivers _).perm settled.1)

theorem served_of_run (run : ExchangeRun hash ts s) (symbol : Symbol) :
    OrderBook.serve ((requests symbol (executed (getShard hash symbol) ts)).map Prod.snd) =
      .ok (bookOf hash s.shared symbol) :=
  (serial_of_run run).books _ _

/-- A settled shard has applied all requests for the symbol, each client's in the order
it issued them; the symbol's book is the one they leave, and `getOrder` answers from it. -/
theorem settled_query (run : ExchangeRun hash ts s) (symbol : Symbol)
    (settled : Settled s (getShard hash symbol)) :
    (∃ merge, (∀ p, merge.filter (fun r => r.1 = p) =
          (issued symbol ts).filter fun r => r.1 = p) ∧
        (∀ p, (∀ r ∈ issued symbol ts, r.1 = p) → merge = issued symbol ts) ∧
        OrderBook.serve (merge.map Prod.snd) = .ok (bookOf hash s.shared symbol)) ∧
      ∀ orderId, getOrder hash s.shared symbol orderId =
        (bookOf hash s.shared symbol).getOrder orderId := by
  have own := requests_filter_of_settled run symbol settled
  refine ⟨⟨_, own, ?_, served_of_run run symbol⟩, getOrder_eq hash s.shared symbol⟩
  intro p mine
  have all : ∀ r ∈ requests symbol (executed (getShard hash symbol) ts), r.1 = p :=
    fun r hr => mine r ((applied_perm_of_settled run symbol settled).mem_iff.mp hr)
  have same := own p
  rwa [List.filter_eq_self.mpr (by simpa using all),
    List.filter_eq_self.mpr (by simpa using mine)] at same

/-- Independent orders, whoever submitted them and in whatever order they arrived, leave a
settled exchange as they leave a book of its own. -/
theorem settled_independent_orders (run : ExchangeRun hash ts s) (symbol : Symbol)
    (settled : Settled s (getShard hash symbol)) {os : List Order}
    (calls : ((issued symbol ts).map Prod.snd).Perm (os.map .newOrder))
    (indep : OrderBook.Independent os) :
    ∃ book, OrderBook.new.submitAll os = .ok (os.map fun _ => .accepted, book) ∧
      (∀ side, (bookOf hash s.shared symbol).orders side = book.orders side) ∧
      (∀ key, (bookOf hash s.shared symbol).volumes key = book.volumes key) ∧
      (∀ orderId, getOrder hash s.shared symbol orderId = book.getOrder orderId) ∧
      ∀ o ∈ os, getOrder hash s.shared symbol o.idNs = .ok (some o) := by
  have applied := ((applied_perm_of_settled run symbol settled).map Prod.snd).trans calls
  obtain ⟨arrived, arrivals, perm⟩ := Request.exists_newOrders applied
  have served := served_of_run run symbol
  rw [arrivals] at served
  have free : OrderBook.Independent (arrived ++ []) := by simpa using indep.perm perm.symm
  have free' : OrderBook.Independent (os ++ []) := by simpa using indep
  obtain ⟨accepts, rested⟩ := OrderBook.rested_new.submitAll free
  obtain ⟨accepted, held⟩ := OrderBook.rested_new.submitAll free'
  have same := served.symm.trans (OrderBook.serve_newOrders accepts)
  injection same with book
  have reversed : (arrived.reverse ++ []).Perm (os.reverse ++ []) := by
    simpa using (arrived.reverse_perm.trans perm).trans os.reverse_perm.symm
  have once : OrderBook.Independent (arrived.reverse ++ []) := by
    simpa using indep.perm (perm.symm.trans arrived.reverse_perm.symm)
  obtain ⟨orders, found⟩ := rested.same held reversed once
  simp only [getOrder_eq, book]
  refine ⟨_, accepted, orders, fun key => ?_, found, fun o ho => ?_⟩
  · rw [OrderBook.volumes_foldl, OrderBook.volumes_foldl, perm.foldl_eq]
  · exact rested.getOrder_of_mem once (by simpa using perm.mem_iff.mpr ho)

/-- The orders applied for the symbol so far make a run of the symbol's book. -/
theorem bookRun_of_run (run : ExchangeRun hash ts s) (symbol : Symbol) :
    ∃ steps, OrderBook.BookRun steps (bookOf hash s.shared symbol) ∧
      (steps.filterMap OrderBook.BookStep.submitted).Subperm (submissions symbol ts) := by
  obtain ⟨steps, bookRun, same⟩ := OrderBook.run_of_serve (served_of_run run symbol)
    fun request mem => direct_requests mem
  refine ⟨steps, bookRun, ?_⟩
  rw [same, List.filterMap_map]
  obtain ⟨l, perm, sub⟩ := applied_subperm run symbol
  exact ⟨l.filterMap fun r => r.2.submits, perm.filterMap _, sub.filterMap _⟩

/-- As long as the orders submitted for a symbol have different timestamps, between any two
tasks of any interleaving each one that rests is found by its id, and the task that cancels
it takes out it alone. An id that nobody submitted is not found. -/
theorem exchange_serves_resting (run : ExchangeRun hash ts s) (symbol : Symbol)
    (stamped : ((submissions symbol ts).map Order.timestamp).Nodup) :
    (∀ side, ∀ o ∈ (bookOf hash s.shared symbol).orders side,
      getOrder hash s.shared symbol o.idNs = .ok (some o) ∧
        ∃ shards, (cancelOrder hash symbol o.idNs).1.run s.shared = .ok shards ∧
          ∀ t, (bookOf hash shards symbol).orders t =
            ((bookOf hash s.shared symbol).orders t).filter fun x => x.idNs ≠ o.idNs) ∧
      ∀ orderId, (∀ o ∈ submissions symbol ts, o.idNs ≠ orderId) →
        getOrder hash s.shared symbol orderId = .ok none := by
  obtain ⟨steps, bookRun, l, perm, sub⟩ := bookRun_of_run run symbol
  have fresh : ((steps.filterMap OrderBook.BookStep.submitted).map Order.timestamp).Nodup :=
    (perm.map _).nodup_iff.mp (stamped.sublist (sub.map _))
  have stamps := OrderBook.stamped_of_run bookRun fresh
  have linked := OrderBook.linked_of_run bookRun
  refine ⟨fun side o ho => ?_, fun orderId never => ?_⟩
  · obtain ⟨found, book, cancels, left⟩ := stamps.serves fresh linked ho
    obtain ⟨shards, returns, after⟩ := run_cancelOrder cancels
    refine ⟨by rw [getOrder_eq, found], shards, returns, ?_⟩
    rw [after]
    exact left
  · rw [getOrder_eq]
    refine (stamps.unknown fun o ho => never o ?_).1
    exact sub.subset (perm.mem_iff.mpr ho)

theorem entered_of_worker {k : Shard} {vs : List (PoolStep Q Shards)}
    (own : ∀ t ∈ vs, PoolStep.ofWorker k t = true) : entered k vs = [] := by
  rw [entered, List.filterMap_eq_nil_iff]
  rintro ⟨before, label, after⟩ ht
  have worker := own _ ht
  cases label <;> first | rfl | cases worker

theorem run_of_pool {vs : List (PoolStep Q Shards)} (run : ExchangeRun hash ts s) {k : Shard}
    {s' : ThreadPool Q Shards} (own : ∀ t ∈ vs, PoolStep.ofWorker k t = true)
    (later : Run (ThreadPool.Step Task.run) s vs s') : ExchangeRun hash (ts ++ vs) s' := by
  induction later with
  | start => rwa [List.append_nil]
  | @snoc vs s₁ s' a later step ih =>
      rw [List.forall_mem_append, List.forall_mem_singleton] at own
      rw [← List.append_assoc]
      refine (ih own.1).snoc (.pool (fun client shard task same => ?_) step)
      have worker := own.2
      rw [same] at worker
      cases worker

theorem not_faulty_of_orders (run : ExchangeRun hash ts s) {k : Shard}
    (orders : ∀ call ∈ entered k ts, ∃ symbol order shard,
      call.task = .newOrder symbol order shard) : ¬ Faulty Task.run s k := by
  rintro ⟨call, e, phase, fault⟩
  have accounted := accounted_of_run run.toPool
  have entry := accounted.entered_of_polled (accounted.polled_of_running phase)
  obtain ⟨symbol, order, shard, task⟩ := orders call entry
  obtain ⟨-, home⟩ := routed_of_entered run entry
  rw [task] at home fault
  obtain rfl : shard = getShard hash symbol := home
  obtain ⟨steps, bookRun, -⟩ := bookRun_of_run run symbol
  obtain ⟨flags, book, answer, -⟩ :=
    OrderBook.newOrder_submission (OrderBook.wellFormed_of_run bookRun).valid order
  unfold bookOf at answer
  unfold Task.run at fault
  dsimp only at fault
  rw [answer] at fault
  cases fault

/-- In every state, the worker of a shard that is not asked to stop can settle the shard by
itself; nothing but a fault of a book keeps it from that, and there is none where only
orders are submitted. -/
theorem shard_settles (run : ExchangeRun hash ts s) (k : Shard)
    (alive : (s.workers k).stopRequested = false)
    (yields : ∀ q p, Q.pending q p ≠ [] → ∃ x q', Q.tryDequeue (some x) q q') :
    ∃ vs s', ExchangeRun hash (ts ++ vs) s' ∧ vs.length ≤ toDo k ts s ∧
      (∀ t ∈ vs, PoolStep.ofWorker k t = true) ∧ (Settled s' k ∨ Faulty Task.run s' k) ∧
      ((∀ call ∈ entered k ts, ∃ symbol order shard,
        call.task = .newOrder symbol order shard) → Settled s' k) := by
  obtain ⟨vs, s', later, short, own, ends⟩ := exists_drain yields run.toPool alive
  have whole := run_of_pool run own later
  refine ⟨vs, s', whole, short, own, ends, fun orders => ends.resolve_right ?_⟩
  refine not_faulty_of_orders whole ?_
  rw [entered_append, entered_of_worker own, List.append_nil]
  exact orders

end Runs

section TwoClients

private theorem quoted_run :
    ∃ us vs, ∃ m s : TwoClients, ExchangeRun bytesSum us m ∧ ExchangeRun bytesSum (us ++ vs) s ∧
      Settled s 1 ∧ issued [65] us = [(true, .newOrder (.plain .buy 1 1 100 10)),
        (false, .newOrder (.plain .sell 2 2 101 5))] ∧ issued [65] (us ++ vs) = issued [65] us ∧
      (bookOf bytesSum m.shared [65]).orders .sell = [.plain .sell 2 2 101 5] ∧
      (bookOf bytesSum s.shared [65]).orders .buy = [.plain .buy 1 1 100 10] ∧
      (bookOf bytesSum s.shared [65]).orders .sell = [.plain .sell 2 2 101 5] := by
  let ask : Enqueued Bool Task := ⟨1, false, .newOrder [65] (.plain .sell 2 2 101 5) 1⟩
  have new : ExchangeRun bytesSum [] (new _ : TwoClients) := .start
  have submitted := new.snoc
    (.call true (.newOrder [65] (.plain .buy 1 1 100 10)) (.enqueue _ _ _ (by decide) rfl))
  have both := submitted.snoc
    (.call false (.newOrder [65] (.plain .sell 2 2 101 5)) (.enqueue _ _ _ (by decide) rfl))
  have taken := (both.snoc (.pool (by simp) (.test 1 rfl))).snoc
    (.pool (by simp) (.poll 1 (some ask) rfl ⟨false, [], rfl, rfl⟩))
  have asked := taken.snoc (.pool (by simp) (.run 1 _ rfl rfl))
  have late := (asked.snoc (.pool (by simp) (.test 1 rfl))).snoc
    (.pool (by simp) (.poll 1 (some firstCall) rfl ⟨true, [], rfl, rfl⟩))
  have bid := late.snoc (.pool (by simp) (.run 1 _ rfl rfl))
  refine ⟨_, [_, _, _], _, _, asked, bid, ⟨?_, rfl⟩, rfl, rfl, by decide +kernel,
    by decide +kernel, by decide +kernel⟩
  rintro (_ | _) <;> rfl

theorem settled_query_two_clients :
    ∃ ts, ∃ s : TwoClients, ExchangeRun bytesSum ts s ∧
      issued [65] ts = [(true, .newOrder (.plain .buy 1 1 100 10)),
        (false, .newOrder (.plain .sell 2 2 101 5))] ∧
      (bookOf bytesSum s.shared [65]).orders .buy = [.plain .buy 1 1 100 10] ∧
      (bookOf bytesSum s.shared [65]).orders .sell = [.plain .sell 2 2 101 5] ∧
      (∃ merge, (∀ p, merge.filter (fun r => r.1 = p) =
            (issued [65] ts).filter fun r => r.1 = p) ∧
          (∀ p, (∀ r ∈ issued [65] ts, r.1 = p) → merge = issued [65] ts) ∧
          OrderBook.serve (merge.map Prod.snd) = .ok (bookOf bytesSum s.shared [65])) ∧
      ∀ orderId, getOrder bytesSum s.shared [65] orderId =
        (bookOf bytesSum s.shared [65]).getOrder orderId := by
  obtain ⟨us, vs, m, s, -, run, settled, calls, same, -, bids, asks⟩ := quoted_run
  exact ⟨_, s, run, same.trans calls, bids, asks, settled_query run [65] settled⟩

theorem settled_independent_orders_two_clients :
    ∃ ts, ∃ s : TwoClients, ExchangeRun bytesSum ts s ∧
      getOrder bytesSum s.shared [65] (Order.pack 1 1) = .ok (some (.plain .buy 1 1 100 10)) ∧
      getOrder bytesSum s.shared [65] (Order.pack 2 2) = .ok (some (.plain .sell 2 2 101 5)) := by
  obtain ⟨us, vs, m, s, -, run, settled, calls, same, -⟩ := quoted_run
  have indep : OrderBook.Independent [.plain .buy 1 1 100 10, .plain .sell 2 2 101 5] :=
    ⟨by decide, by decide, by decide, by decide⟩
  obtain ⟨book, -, -, -, -, found⟩ :=
    settled_independent_orders run [65] settled (by rw [same, calls]; rfl) indep
  exact ⟨_, s, run, found (.plain .buy 1 1 100 10) (by simp),
    found (.plain .sell 2 2 101 5) (by simp)⟩

/-- The ask rests while the bid still waits. -/
theorem exchange_serves_resting_ask :
    ∃ ts, ∃ s : TwoClients, ExchangeRun bytesSum ts s ∧
      getOrder bytesSum s.shared [65] (Order.pack 2 2) = .ok (some (.plain .sell 2 2 101 5)) ∧
      getOrder bytesSum s.shared [65] (Order.pack 9 9) = .ok none := by
  obtain ⟨us, vs, m, s, run, -, -, calls, -, asks, -⟩ := quoted_run
  have stamped : ((submissions [65] us).map Order.timestamp).Nodup := by
    rw [submissions, calls]
    decide
  obtain ⟨served, unknown⟩ := exchange_serves_resting run [65] stamped
  refine ⟨_, m, run, (served .sell (.plain .sell 2 2 101 5) (by simp [asks])).1,
    unknown _ fun o ho => ?_⟩
  rw [submissions, calls] at ho
  revert o
  decide

theorem shard_settles_two_clients :
    ∃ ts, ∃ s : TwoClients, ExchangeRun bytesSum ts s ∧ Settled s 1 ∧
      issued [65] ts = [(true, .newOrder (.plain .buy 1 1 100 10)),
        (false, .newOrder (.plain .sell 2 2 101 5))] := by
  have new : ExchangeRun bytesSum [] (new _ : TwoClients) := .start
  have submitted := new.snoc
    (.call true (.newOrder [65] (.plain .buy 1 1 100 10)) (.enqueue _ _ _ (by decide) rfl))
  have both := submitted.snoc
    (.call false (.newOrder [65] (.plain .sell 2 2 101 5)) (.enqueue _ _ _ (by decide) rfl))
  have yields : ∀ (q : Bool → List (Enqueued Bool Task)) p, q p ≠ [] →
      ∃ x q', (ConcurrentQueue.perProducer Bool (Enqueued Bool Task)).tryDequeue (some x) q q' := by
    intro q p some_task
    obtain ⟨x, rest, front⟩ := List.exists_cons_of_ne_nil some_task
    exact ⟨x, _, p, rest, front, rfl⟩
  obtain ⟨vs, s, run, -, own, -, settles⟩ := shard_settles both 1 rfl yields
  refine ⟨_, s, run, settles ?_, ?_⟩
  · intro call entry
    rcases List.mem_pair.mp entry with rfl | rfl
    · exact ⟨_, _, _, rfl⟩
    · exact ⟨_, _, _, rfl⟩
  · rw [← requests_entered run, entered_append]
    change requests _ (_ ++ entered 1 vs) = _
    rw [entered_of_worker own]
    rfl

end TwoClients

end Exchange

end FastLittleMarket
