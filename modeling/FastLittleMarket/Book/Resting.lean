import FastLittleMarket.Book.WellFormed

/-!
An order that crosses nothing comes to rest, and cancelling it undoes that.

The two calls take different ways through the code: the submission picks the queue
by the side of the order, the cancellation probes both. What they leave differs from
the original book in the next handle alone.
-/

namespace FastLittleMarket

namespace PriorityQueueAdapter

variable {C : Comparator Order}

/-- The same nodes in the same order and the same index. -/
structure Same (q q' : PriorityQueueAdapter C) : Prop where
  nodes : q'.priceSorted.nodes = q.priceSorted.nodes
  index : q'.idToIter = q.idToIter

namespace Same

variable {q q' : PriorityQueueAdapter C}

theorem orders (h : q.Same q') : q'.orders = q.orders :=
  congrArg (List.map Prod.snd) h.nodes

theorem top (h : q.Same q') : q'.top = q.top := by
  rw [top_eq_head?, top_eq_head?, h.orders]

theorem find (h : q.Same q') (id : UInt64) : q'.find id = q.find id := by
  simp only [PriorityQueueAdapter.find, h.index, OrderedBag.deref, h.nodes]

end Same

theorem find_push_self (q : PriorityQueueAdapter C) {o : Order} (valid : o.isValid = true) :
    (q.push o).2.find o.idNs = .ok (some o) := by
  apply find_eq_some.mpr
  refine ⟨q.priceSorted.fresh, ?_, ?_⟩
  · rw [idToIter_push q valid, Function.update_self]
  · rw [priceSorted_push q valid, OrderedBag.deref_insert_fresh]

/-- Removing what was just pushed under an unused id gives the queue back. -/
theorem remove_push (q : PriorityQueueAdapter C) {o : Order} (valid : o.isValid = true)
    (unused : q.idToIter o.idNs = none) :
    ∃ q', (q.push o).2.remove o.idNs = .ok (true, q') ∧ q.Same q' := by
  refine ⟨⟨(q.priceSorted.insert o).erase q.priceSorted.fresh, q.idToIter⟩, ?_,
    q.priceSorted.nodes_erase_insert o, rfl⟩
  apply remove_eq_true.mpr
  refine ⟨q.priceSorted.fresh, o, ?_, ?_, ?_⟩
  · rw [idToIter_push q valid, Function.update_self]
  · rw [priceSorted_push q valid, OrderedBag.deref_insert_fresh]
  · rw [priceSorted_push q valid, idToIter_push q valid, Function.update_idem, ← unused,
      Function.update_eq_self]

end PriorityQueueAdapter

namespace OrderBook

variable {b : OrderBook} {o : Order}

def rest (b : OrderBook) (o : Order) : OrderBook :=
  (b.setQueue o.side ((b.queue o.side).push o).2).addVolume o.priceQ4 o.side o.volume

theorem queue_rest (b : OrderBook) (o : Order) :
    (b.rest o).queue o.side = ((b.queue o.side).push o).2 := by
  simp [rest]

theorem queue_rest_opposite (b : OrderBook) (o : Order) :
    (b.rest o).queue o.side.opposite = b.queue o.side.opposite := by
  simp [rest]

theorem newOrder_rests (allValid : b.AllValid) (valid : o.isValid = true)
    (apart : b.canCross o = false) : b.newOrder o = .ok (.accepted, b.rest o) := by
  obtain ⟨flags, b', answer, sub⟩ := newOrder_submission allValid o
  rw [answer]
  cases sub with
  | refused invalid => simp [valid] at invalid
  | rests valid apart => rfl
  | filled valid crosses sweep exhausted => simp [apart] at crosses
  | partly valid crosses sweep left => simp [apart] at crosses

theorem cancelOrder_of_find {s : Side} {id : UInt64} (found : (b.queue s).find id = .ok (some o))
    (first : s = .sell → b.buyOrders.find id = .ok none) :
    b.cancelOrder id = b.cancelOn s o id := by
  cases s with
  | buy =>
      have bid : b.buyOrders.find id = .ok (some o) := found
      simp only [cancelOrder, bid]
  | sell =>
      have ask : b.sellOrders.find id = .ok (some o) := found
      simp only [cancelOrder, first rfl, ask]

/-- Taking out of a level what was just put in leaves its old value, zero for none. -/
theorem volumes_rest_cancel (b : OrderBook) (s : Side) (p v : UInt32)
    (q q' : PriorityQueueAdapter (comparator s)) (key : UInt32 × Side) :
    (((((b.setQueue s q).addVolume p s v).setQueue s q').subVolume p s v).volumes key).getD 0 =
      (b.volumes key).getD 0 := by
  have kept : ∀ (c : OrderBook) q, (c.setQueue s q).volumes = c.volumes := by
    intro c q
    cases s <;> rfl
  by_cases same : key = (p, s)
  · subst same
    simp [subVolume, addVolume, kept]
  · simp [subVolume, addVolume, kept, Function.update_of_ne same]

/-- On every reachable book the cancellation of a valid order that crosses nothing and
whose id is unused undoes its submission. -/
theorem cancel_undoes_new {steps : List BookStep} (run : BookRun steps b)
    (valid : o.isValid = true) (apart : b.canCross o = false)
    (unused : ∀ s, (b.queue s).idToIter o.idNs = none) :
    ∃ b₁ b₂, b.newOrder o = .ok (.accepted, b₁) ∧
      b₁.cancelOrder o.idNs = .ok (.cancelled, b₂) ∧
      (∀ s, b₂.orders s = b.orders s) ∧
      (∀ s, (b₂.queue s).idToIter = (b.queue s).idToIter ∧
        (b₂.queue s).priceSorted.nodes = (b.queue s).priceSorted.nodes) ∧
      b₂.getTopOfBook = b.getTopOfBook ∧
      (∀ id, b₂.getOrder id = b.getOrder id) ∧
      ∀ key, (b₂.volumes key).getD 0 = (b.volumes key).getD 0 := by
  obtain ⟨q, removed, same⟩ := (b.queue o.side).remove_push valid (unused o.side)
  have pushed := queue_rest b o
  have found : ((b.rest o).queue o.side).find o.idNs = .ok (some o) := by
    rw [pushed]
    exact (b.queue o.side).find_push_self valid
  have first : o.side = .sell → (b.rest o).buyOrders.find o.idNs = .ok none := by
    intro side
    have bids := queue_rest_opposite b o
    rw [side] at bids
    exact (congrArg (fun q => q.find o.idNs) bids).trans
      (PriorityQueueAdapter.find_eq_none.mpr (unused .buy))
  let b₂ := ((b.rest o).setQueue o.side q).subVolume o.priceQ4 o.side o.volume
  have queues : ∀ s, (b.queue s).Same (b₂.queue s) := by
    intro s
    rcases Side.eq_or_opposite s o.side with rfl | rfl
    · simpa [b₂] using same
    · have other : b₂.queue o.side.opposite = b.queue o.side.opposite := by
        simp [b₂, queue_rest_opposite]
      rw [other]
      exact ⟨rfl, rfl⟩
  refine ⟨b.rest o, b₂, newOrder_rests (wellFormed_of_run run).valid valid apart, ?_,
    fun s => (queues s).orders, fun s => ⟨(queues s).index, (queues s).nodes⟩, ?_, ?_,
    volumes_rest_cancel b o.side o.priceQ4 o.volume _ q⟩
  · rw [cancelOrder_of_find found first, cancelOn, pushed, removed]
    rfl
  · exact congrArg₂ TopOfBook.mk (queues .buy).top (queues .sell).top
  · intro id
    have bids : b₂.buyOrders.find id = b.buyOrders.find id := (queues .buy).find id
    have asks : b₂.sellOrders.find id = b.sellOrders.find id := (queues .sell).find id
    simp only [getOrder, bids, asks]

theorem cancel_undoes_tied_bid :
    let b := (replay [.newOrder (.plain .buy 1 1 100 5)]).2
    ∃ b₁ b₂, b.newOrder (.plain .buy 2 1 100 7) = .ok (.accepted, b₁) ∧
      b₁.cancelOrder (Order.pack 2 1) = .ok (.cancelled, b₂) ∧
      b₂.orders .buy = [.plain .buy 1 1 100 5] ∧
      b₂.getTopOfBook = ⟨some (.plain .buy 1 1 100 5), none⟩ := by
  intro b
  have unused : ∀ s, (b.queue s).idToIter (Order.plain .buy 2 1 100 7).idNs = none := by
    intro s
    cases s <;> decide +kernel
  obtain ⟨b₁, b₂, rests, cancelled, orders, -, top, -⟩ :=
    cancel_undoes_new (replay_run [.newOrder (.plain .buy 1 1 100 5)])
      (o := .plain .buy 2 1 100 7) (by decide) (by decide +kernel) unused
  refine ⟨b₁, b₂, rests, cancelled, ?_, ?_⟩
  · rw [orders]
    decide +kernel
  · rw [top]
    decide +kernel

end OrderBook

end FastLittleMarket
