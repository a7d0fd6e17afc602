import FastLittleMarket.Library.Run
import FastLittleMarket.Book.Matching

/-!
Requests, runs of the book, and what each request can do.

`Submission` lists every outcome of `newOrder`, `Cancellation` every outcome of
`cancelOrder`; a modification is a cancellation followed by a submission. A run
goes on only while no request faults, so the states of a run are the books
reached before the first erased iterator is dereferenced.
-/

namespace FastLittleMarket

inductive Request where
  | newOrder (order : Order)
  | cancelOrder (orderId : UInt64)
  | modifyOrder (orderId : UInt64) (newPriceQ4 newVolume : UInt32)
      (sequencer : GlobalSequencer) (unset : UnsetFlags)

/-- The request submits or cancels. -/
def Request.Direct : Request → Prop
  | .modifyOrder .. => False
  | _ => True

namespace OrderBook

def step (b : OrderBook) : Request → Except BookFault (ExecFlags × OrderBook)
  | .newOrder order => b.newOrder order
  | .cancelOrder orderId => b.cancelOrder orderId
  | .modifyOrder orderId newPriceQ4 newVolume sequencer unset =>
      (b.modifyOrder orderId newPriceQ4 newVolume sequencer unset).map fun r => (r.1, r.2.1)

/-- A request answered without fault, as a labelled step. -/
def Answers (b : OrderBook) (label : Request × ExecFlags) (b' : OrderBook) : Prop :=
  b.step label.1 = .ok (label.2, b')

abbrev BookStep := Taken OrderBook (Request × ExecFlags)

abbrev BookRun (steps : List BookStep) (b : OrderBook) : Prop := Run Answers new steps b

/-- The steps that the requests take from the empty book, and the book they reach. -/
def replay (requests : List Request) : List BookStep × OrderBook := replayFrom step new requests

theorem replay_run (requests : List Request) :
    BookRun (replay requests).1 (replay requests).2 := Run.start.replay step requests

/-- `newOrder` calls one after the other, with their answers. -/
def submitAll (b : OrderBook) : List Order → Except BookFault (List ExecFlags × OrderBook)
  | [] => .ok ([], b)
  | o :: os =>
      match b.newOrder o with
      | .error e => .error e
      | .ok (flags, b) =>
          match b.submitAll os with
          | .error e => .error e
          | .ok (later, b) => .ok (flags :: later, b)

def AllValid (b : OrderBook) : Prop := ∀ s, ∀ o ∈ b.orders s, o.isValid = true

theorem canCross_eq_false {b : OrderBook} {o : Order} :
    b.canCross o = false ↔
      ∀ r ∈ (b.orders o.side.opposite).head?, priceCrosses o r = false := by
  unfold canCross orders
  rw [PriorityQueueAdapter.top_eq_head?]
  cases (b.queue o.side.opposite).orders.head? <;> simp

/-- Where the matching loop of a submission of `o` starts. -/
def matching (b : OrderBook) (o : Order) : Matching o.side.opposite :=
  ⟨o, b.queue o.side.opposite⟩

inductive Submission (b : OrderBook) (o : Order) : ExecFlags → OrderBook → Prop
  | refused (invalid : o.isValid = false) : Submission b o .rejected b
  | rests (valid : o.isValid = true)
      (apart : ∀ r ∈ (b.orders o.side.opposite).head?, priceCrosses o r = false) :
      Submission b o .accepted
        ((b.setQueue o.side ((b.queue o.side).push o).2).addVolume o.priceQ4 o.side o.volume)
  | filled (valid : o.isValid = true) {m : Matching o.side.opposite}
      (crosses : b.canCross o = true)
      (sweep : Sweeps (b.matching o) (matchRounds (b.matching o)) m)
      (exhausted : m.incoming.volume = 0) :
      Submission b o (.fullyFilled ||| .accepted) (b.setQueue o.side.opposite m.opposite)
  | partly (valid : o.isValid = true) {m : Matching o.side.opposite}
      (crosses : b.canCross o = true)
      (sweep : Sweeps (b.matching o) (matchRounds (b.matching o)) m)
      (left : m.incoming.volume ≠ 0) :
      Submission b o (.partiallyFilled ||| .accepted)
        ((b.setQueue o.side.opposite m.opposite).setQueue o.side
          ((b.queue o.side).push m.incoming).2)

theorem queue_isValid {b : OrderBook} (valid : b.AllValid) (s : Side) :
    (b.queue s).isValid = true :=
  PriorityQueueAdapter.isValid_iff.mpr (valid s)

theorem newOrder_submission {b : OrderBook} (valid : b.AllValid) (o : Order) :
    ∃ flags b', b.newOrder o = .ok (flags, b') ∧ Submission b o flags b' := by
  cases hv : o.isValid with
  | false => exact ⟨_, _, by simp [newOrder, hv], .refused hv⟩
  | true =>
      cases hc : b.canCross o with
      | false =>
          refine ⟨_, _, ?_, .rests hv (canCross_eq_false.mp hc)⟩
          simp only [newOrder, hv, hc, queue_isValid valid, Bool.not_true, Bool.false_eq_true,
            ite_false]
          rfl
      | true =>
          have priced := (Order.isValid_iff_priced.mp hv).2
          obtain ⟨m, hloop, sweep⟩ := matchLoop_spec (m := b.matching o) priced (valid _)
          change matchLoop ⟨o, b.queue o.side.opposite⟩ = _ at hloop
          by_cases hz : m.incoming.volume = 0
          · refine ⟨_, _, ?_, .filled hv hc sweep hz⟩
            have low : m.incoming.volume ≤ 0 := by rw [hz]; exact UInt32.le_refl _
            simp only [newOrder, hv, hc, matchOrder, queue_isValid valid, hloop, low,
              Bool.not_true, Bool.false_eq_true, ite_false, ite_true]
            rfl
          · refine ⟨_, _, ?_, .partly hv hc sweep hz⟩
            have high : ¬ m.incoming.volume ≤ 0 := fun h => hz (UInt32.le_zero_iff.mp h)
            simp only [newOrder, hv, hc, matchOrder, queue_isValid valid, hloop, high,
              queue_setQueue_opposite, Bool.not_true, Bool.false_eq_true, ite_false, ite_true]
            rfl

theorem submission_of_newOrder {b b' : OrderBook} {o : Order} {flags : ExecFlags}
    (valid : b.AllValid) (h : b.newOrder o = .ok (flags, b')) : Submission b o flags b' := by
  obtain ⟨flags', b'', heq, hsub⟩ := newOrder_submission valid o
  rw [h] at heq
  cases heq
  exact hsub

inductive Cancellation (b : OrderBook) (id : UInt64) : ExecFlags → OrderBook → Prop
  | absent (bids : b.buyOrders.find id = .ok none) (asks : b.sellOrders.find id = .ok none) :
      Cancellation b id .rejected b
  | removed {s : Side} {o : Order} {q : PriorityQueueAdapter (comparator s)}
      (found : (b.queue s).find id = .ok (some o))
      (first : s = .sell → b.buyOrders.find id = .ok none)
      (gone : (b.queue s).remove id = .ok (true, q)) :
      Cancellation b id .cancelled ((b.setQueue s q).subVolume o.priceQ4 s o.volume)

theorem cancelOn_of_find {b : OrderBook} {s : Side} {id : UInt64} {o : Order}
    (found : (b.queue s).find id = .ok (some o)) :
    ∃ q, (b.queue s).remove id = .ok (true, q) ∧
      b.cancelOn s o id = .ok (.cancelled, (b.setQueue s q).subVolume o.priceQ4 s o.volume) := by
  obtain ⟨q, hremove, -⟩ := PriorityQueueAdapter.remove_of_find found
  exact ⟨q, hremove, by simp [cancelOn, hremove]⟩

theorem cancellation_of_cancelOrder {b b' : OrderBook} {id : UInt64} {flags : ExecFlags}
    (h : b.cancelOrder id = .ok (flags, b')) : Cancellation b id flags b' := by
  unfold cancelOrder at h
  cases hb : b.buyOrders.find id with
  | error e => simp [hb] at h
  | ok found =>
      cases found with
      | some o =>
          obtain ⟨q, hremove, hcancel⟩ := cancelOn_of_find (b := b) (s := .buy) hb
          simp only [hb, hcancel, Except.ok.injEq, Prod.mk.injEq] at h
          obtain ⟨rfl, rfl⟩ := h
          exact .removed (s := .buy) hb (by simp) hremove
      | none =>
          cases hs : b.sellOrders.find id with
          | error e => simp [hb, hs] at h
          | ok found =>
              cases found with
              | some o =>
                  obtain ⟨q, hremove, hcancel⟩ := cancelOn_of_find (b := b) (s := .sell) hs
                  simp only [hb, hs, hcancel, Except.ok.injEq, Prod.mk.injEq] at h
                  obtain ⟨rfl, rfl⟩ := h
                  exact .removed (s := .sell) hs (fun _ => hb) hremove
              | none =>
                  simp only [hb, hs, Except.ok.injEq, Prod.mk.injEq] at h
                  obtain ⟨rfl, rfl⟩ := h
                  exact .absent hb hs

end OrderBook

end FastLittleMarket
