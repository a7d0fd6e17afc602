import FastLittleMarket.Book.Depth
import FastLittleMarket.Book.Links
import FastLittleMarket.Book.Resting

/-!
The ledger of each order over whole runs: what was accepted under an id is what rests
under it, what cancellations and modifications took out of it and what it traded, as
taker or as maker. Ids may repeat and requests may be of any kind.

And the terms of the trades: every fill is at the price of the maker, within the limit
of the taker, and no better price is left on the contra side.
-/

namespace FastLittleMarket

/-- A trade of the matching loop: the two orders, the side and the price of the resting
one, and the volume. -/
structure Fill where
  taker : UInt64
  maker : UInt64
  makerSide : Side
  priceQ4 : UInt32
  volume : ℕ
  deriving DecidableEq

/-- What the fill takes from the orders of side `s` under `id`. -/
def Fill.share (s : Side) (id : UInt64) (f : Fill) : ℕ :=
  if (if f.makerSide = s then f.maker else f.taker) = id then f.volume else 0

/-- The terms of a trade of the incoming `o` with one of the orders `contra`: the price is
the maker's and within the limit of the taker. -/
structure Fill.Proper (o : Order) (contra : List Order) (f : Fill) : Prop where
  taker : f.taker = o.idNs
  side : f.makerSide = o.side.opposite
  positive : 0 < f.volume
  maker : ∃ r ∈ contra, r.idNs = f.maker ∧ r.priceQ4 = f.priceQ4 ∧ f.volume ≤ r.volume.toNat
  limit : ¬ betterPrice o.side.opposite o.priceQ4 f.priceQ4

theorem Fill.Proper.mono {o : Order} {contra contra' : List Order} {f : Fill}
    (h : f.Proper o contra) (sub : contra ⊆ contra') : f.Proper o contra' where
  taker := h.taker
  side := h.side
  positive := h.positive
  maker := by
    obtain ⟨r, hr, facts⟩ := h.maker
    exact ⟨r, sub hr, facts⟩
  limit := h.limit

def volumeUnder (id : UInt64) (rs : List Order) : ℕ :=
  totalVolume (rs.filter fun r => r.idNs = id)

theorem volumeUnder_cons (id : UInt64) (r : Order) (rs : List Order) :
    volumeUnder id (r :: rs) = (if r.idNs = id then r.volume.toNat else 0) + volumeUnder id rs := by
  unfold volumeUnder
  by_cases h : r.idNs = id <;> simp [h]

theorem volumeUnder_perm {rs rs' : List Order} (h : rs.Perm rs') (id : UInt64) :
    volumeUnder id rs = volumeUnder id rs' :=
  totalVolume_perm (h.filter _)

namespace OrderBook

def Matching.fillOf {s : Side} (m : Matching s) : Option Fill :=
  m.opposite.top.map fun best =>
    { taker := m.incoming.idNs
      maker := best.idNs
      makerSide := s
      priceQ4 := best.priceQ4
      volume := (tradeVolume m.incoming best).toUInt32.toNat }

def fillsOn (b : OrderBook) (o : Order) : List Fill :=
  if o.isValid && b.canCross o then (matchRounds (b.matching o)).filterMap Matching.fillOf else []

namespace BookStep

/-- The order that a step submits, and the book that it meets there. -/
def placed (t : BookStep) : Option (OrderBook × Order) :=
  match t.label.1 with
  | .newOrder o => some (t.before, o)
  | .cancelOrder _ => none
  | .modifyOrder id p v g u =>
      match t.before.buyOrders.find id, t.before.cancelOrder id with
      | .ok (some o), .ok (flags, b) =>
          if flags.hasFlag .rejected then none else some (b, (replacement o p v g u).1)
      | _, _ => none

def fills (t : BookStep) : List Fill :=
  match t.placed with
  | some (b, o) => b.fillsOn o
  | none => []

def acceptedUnder (s : Side) (id : UInt64) (t : BookStep) : ℕ :=
  match t.placed with
  | some (_, o) =>
      if t.label.2.hasFlag .accepted && o.side = s && o.idNs = id then o.volume.toNat else 0
  | none => 0

/-- The volume that the step took out under `id` on side `s`, by a cancellation or by a
modification. -/
def withdrawnUnder (s : Side) (id : UInt64) (t : BookStep) : ℕ :=
  match t.label with
  | (.newOrder _, _) => 0
  | (.cancelOrder id', flags) | (.modifyOrder id' _ _ _ _, flags) =>
      if flags.hasFlag .cancelled && id' = id then
        match t.before.getOrder id' with
        | .ok (some o) => if o.side = s then o.volume.toNat else 0
        | _ => 0
      else 0

def tradedUnder (s : Side) (id : UInt64) (t : BookStep) : ℕ :=
  (t.fills.map (Fill.share s id)).sum

end BookStep

variable {s : Side} {b b' : OrderBook} {id : UInt64}

theorem fillOf_consume {m : Matching s} {r : Order} {rest : List Order}
    (first : m.opposite.orders = r :: rest) (fits : r.volume ≤ m.incoming.volume) :
    m.fillOf = some ⟨m.incoming.idNs, r.idNs, s, r.priceQ4, r.volume.toNat⟩ := by
  simp only [Matching.fillOf, PriorityQueueAdapter.top_eq_head?, first, List.head?_cons,
    Option.map_some, tradeVolume_toUInt32, min_of_le fits]

theorem fillOf_reduce {m : Matching s} {r : Order} {rest : List Order}
    (first : m.opposite.orders = r :: rest) (exceeds : m.incoming.volume < r.volume) :
    m.fillOf = some ⟨m.incoming.idNs, r.idNs, s, r.priceQ4, m.incoming.volume.toNat⟩ := by
  simp only [Matching.fillOf, PriorityQueueAdapter.top_eq_head?, first, List.head?_cons,
    Option.map_some, tradeVolume_toUInt32, min_of_lt exceeds]

/-- What a sweep takes from the contra orders under an id, its fills say, and what it
takes from the incoming order. -/
theorem Sweeps.shares {m m' : Matching s} {ms : List (Matching s)} (h : Sweeps m ms m')
    (valid : ∀ r ∈ m.opposite.orders, r.isValid = true) (id : UInt64) :
    volumeUnder id m.opposite.orders = volumeUnder id m'.opposite.orders +
        ((ms.filterMap Matching.fillOf).map (Fill.share s id)).sum ∧
      (if m.incoming.idNs = id then m.incoming.volume.toNat else 0) =
        (if m.incoming.idNs = id then m'.incoming.volume.toNat else 0) +
          ((ms.filterMap Matching.fillOf).map (Fill.share s.opposite id)).sum := by
  have other : s ≠ s.opposite := (Side.opposite_ne s).symm
  induction h with
  | stop h => simp
  | @consume m m' ms r rest first crosses left fits next ih =>
      have tail := orders_consume first
      have volume : (m.consume r).incoming.volume.toNat =
          m.incoming.volume.toNat - r.volume.toNat := UInt32.toNat_sub_of_le _ _ fits
      have same : (m.consume r).incoming.idNs = m.incoming.idNs := rfl
      have le := UInt32.le_iff_toNat_le.mp fits
      obtain ⟨contra, incoming⟩ := ih fun x hx => valid x (by
        rw [tail] at hx
        simp [first, hx])
      rw [tail] at contra
      rw [volume, same] at incoming
      rw [List.filterMap_cons_some (fillOf_consume first fits), List.map_cons, List.map_cons,
        List.sum_cons, List.sum_cons, first, volumeUnder_cons]
      simp only [Fill.share, other, ite_true, ite_false] at contra incoming ⊢
      split_ifs at * <;> omega
  | @reduce m r rest first crosses left exceeds =>
      have lt := UInt32.lt_iff_toNat_lt.mp exceeds
      have perm := orders_reduce_perm (valid r (by simp [first])) first exceeds
      have gone : (m.reduce r).incoming.volume.toNat = 0 := rfl
      rw [volumeUnder_perm perm, first, volumeUnder_cons, volumeUnder_cons,
        List.filterMap_cons_some (fillOf_reduce first exceeds), gone,
        UInt32.toNat_sub_of_le _ _ (UInt32.le_of_lt exceeds)]
      simp only [List.filterMap_nil, List.map_cons, List.map_nil, List.sum_singleton, Fill.share,
        other, ite_true, ite_false]
      split_ifs <;> omega

theorem Submission.shares {o : Order} {flags : ExecFlags} (sub : Submission b o flags b')
    (wf : b.WellFormed) (id : UInt64) :
    volumeUnder id (b.orders o.side) +
        (if flags.hasFlag .accepted && o.idNs = id then o.volume.toNat else 0) =
        volumeUnder id (b'.orders o.side) + ((b.fillsOn o).map (Fill.share o.side id)).sum ∧
      volumeUnder id (b.orders o.side.opposite) = volumeUnder id (b'.orders o.side.opposite) +
        ((b.fillsOn o).map (Fill.share o.side.opposite id)).sum := by
  cases sub with
  | refused invalid =>
      have flag : ExecFlags.hasFlag .rejected .accepted = false := by decide
      simp [fillsOn, invalid, flag]
  | rests valid apart =>
      have flag : ExecFlags.hasFlag .accepted .accepted = true := by decide
      have own := volumeUnder_perm
        (PriorityQueueAdapter.orders_push_perm (b.queue o.side) valid) id
      rw [volumeUnder_cons] at own
      simp only [fillsOn, canCross_eq_false.mpr apart, Bool.and_false, Bool.false_eq_true,
        ite_false, flag, Bool.true_and, decide_eq_true_eq, orders, queue_addVolume, queue_setQueue,
        queue_opposite_setQueue, own, List.map_nil, List.sum_nil, Nat.add_zero, and_true]
      omega
  | @filled valid m crosses sweep exhausted =>
      have flag : ExecFlags.hasFlag (.fullyFilled ||| .accepted) .accepted = true := by decide
      obtain ⟨contra, incoming⟩ := sweep.shares (wf.valid _) id
      rw [exhausted, UInt32.toNat_zero, ite_self, Nat.zero_add, Side.opposite_opposite] at incoming
      change (if o.idNs = id then o.volume.toNat else 0) = _ at incoming
      simp only [fillsOn, valid, crosses, Bool.and_self, ite_true, flag, Bool.true_and,
        decide_eq_true_eq, orders, queue_setQueue_opposite, queue_setQueue, incoming]
      exact ⟨trivial, contra⟩
  | @partly valid m crosses sweep left =>
      have flag : ExecFlags.hasFlag (.partiallyFilled ||| .accepted) .accepted = true := by
        decide
      obtain ⟨contra, incoming⟩ := sweep.shares (wf.valid _) id
      have own := volumeUnder_perm (PriorityQueueAdapter.orders_push_perm (b.queue o.side)
        (sweep.residual_isValid valid left)) id
      rw [volumeUnder_cons, sweep.idNs_eq] at own
      rw [Side.opposite_opposite] at incoming
      change volumeUnder id _ = (if o.idNs = id then _ else 0) + _ at own
      change (if o.idNs = id then o.volume.toNat else 0) =
        (if o.idNs = id then _ else 0) + _ at incoming
      simp only [fillsOn, valid, crosses, Bool.and_self, ite_true, flag, Bool.true_and,
        decide_eq_true_eq, orders, queue_opposite_setQueue, queue_setQueue, incoming, own]
      refine ⟨?_, contra⟩
      omega

theorem Submission.ledger {o : Order} {flags : ExecFlags} (sub : Submission b o flags b')
    (wf : b.WellFormed) (s : Side) (id : UInt64) :
    volumeUnder id (b.orders s) +
        (if flags.hasFlag .accepted && o.side = s && o.idNs = id then o.volume.toNat else 0) =
      volumeUnder id (b'.orders s) + ((b.fillsOn o).map (Fill.share s id)).sum := by
  obtain ⟨own, contra⟩ := sub.shares wf id
  rcases Side.eq_or_opposite s o.side with rfl | rfl
  · simpa using own
  · have other : (o.side = o.side.opposite) = False := by
      simpa using (Side.opposite_ne o.side).symm
    simpa [other] using contra

theorem Submission.flags_of_replaced {o : Order} {flags : ExecFlags}
    (sub : Submission b o flags b') :
    (ExecFlags.cancelled ||| flags).hasFlag .cancelled = true ∧
      (ExecFlags.cancelled ||| flags).hasFlag .accepted = flags.hasFlag .accepted := by
  cases sub <;> decide

theorem volumeUnder_removed {q : PriorityQueueAdapter (comparator s)} {o : Order}
    (found : (b.queue s).find id = .ok (some o)) (gone : (b.queue s).remove id = .ok (true, q))
    (side : o.side = s) (named : o.idNs = id) (t : Side) (id' : UInt64) :
    volumeUnder id' (b.orders t) = volumeUnder id'
        (((b.setQueue s q).subVolume o.priceQ4 s o.volume).orders t) +
      if id = id' then (if o.side = t then o.volume.toNat else 0) else 0 := by
  have perm := volumeUnder_perm (orders_subset_of_find found gone) id'
  rw [volumeUnder_cons, named] at perm
  rcases Side.eq_or_opposite t s with rfl | rfl
  · simp only [side, orders, queue_subVolume, queue_setQueue, ite_true] at perm ⊢
    omega
  · simp [orders, side, (Side.opposite_ne s).symm]

theorem placed_of_replaces {o : Order} {q : PriorityQueueAdapter (comparator .buy)}
    (found : b.buyOrders.find id = .ok (some o)) (gone : b.buyOrders.remove id = .ok (true, q))
    (p v : UInt32) (g : GlobalSequencer) (u : UnsetFlags) (flags : ExecFlags) :
    BookStep.placed ⟨b, (.modifyOrder id p v g u, flags), b'⟩ =
      some (b.withoutBid q o, (replacement o p v g u).1) := by
  have kept : ExecFlags.hasFlag .cancelled .rejected = false := by decide
  have cancels : b.cancelOrder id = .ok (.cancelled, b.withoutBid q o) := by
    rw [cancelOrder_of_find (s := .buy) found (by simp)]
    simp [cancelOn, queue, gone, withoutBid]
  simp only [BookStep.placed, found, cancels, kept, Bool.false_eq_true, ite_false]

theorem Answered.submission {label : Request × ExecFlags} (answered : Answered b label b')
    (wf : b.WellFormed) {b₀ : OrderBook} {o : Order}
    (placed : BookStep.placed ⟨b, label, b'⟩ = some (b₀, o)) :
    ∃ flags, b₀.WellFormed ∧ Submission b₀ o flags b' := by
  cases answered with
  | @submits o flags b' sub =>
      cases placed
      exact ⟨flags, wf, sub⟩
  | cancels cancel => cases placed
  | misses found => simp [BookStep.placed, found] at placed
  | @replaces id p v g u o q newFlags b' found gone sub =>
      rw [placed_of_replaces found gone] at placed
      cases placed
      exact ⟨newFlags, (cancellation_withoutBid found gone).wellFormed wf, sub⟩

theorem Answered.ledger {label : Request × ExecFlags} (answered : Answered b label b')
    (wf : b.WellFormed) (linked : ∀ s, (b.queue s).Linked) (s : Side) (id : UInt64) :
    volumeUnder id (b.orders s) + BookStep.acceptedUnder s id ⟨b, label, b'⟩ =
      volumeUnder id (b'.orders s) + BookStep.withdrawnUnder s id ⟨b, label, b'⟩ +
        BookStep.tradedUnder s id ⟨b, label, b'⟩ := by
  unfold BookStep.tradedUnder BookStep.fills BookStep.acceptedUnder
  cases answered with
  | @submits o flags b' sub =>
      simp only [BookStep.placed, BookStep.withdrawnUnder, Nat.add_zero]
      exact sub.ledger wf s id
  | @cancels id' flags b' cancel =>
      simp only [BookStep.placed, List.map_nil, List.sum_nil, Nat.add_zero]
      cases cancel with
      | absent bids asks =>
          have flag : ExecFlags.hasFlag .rejected .cancelled = false := by decide
          simp [BookStep.withdrawnUnder, flag]
      | @removed t o q found first gone =>
          have flag : ExecFlags.hasFlag .cancelled .cancelled = true := by decide
          have side := wf.sides t o (PriorityQueueAdapter.mem_orders_of_find found)
          have named := (linked t).idNs_of_find found
          simp only [BookStep.withdrawnUnder, flag, getOrder_of_found found first, Bool.true_and,
            decide_eq_true_eq]
          exact volumeUnder_removed found gone side named s id
  | @misses id' p v g u found =>
      have flag : ExecFlags.hasFlag .rejected .cancelled = false := by decide
      simp [BookStep.placed, BookStep.withdrawnUnder, found, flag]
  | @replaces id' p v g u o q newFlags b' found gone sub =>
      have side := (wf.mem_of_find found).2.1
      have named := (linked .buy).idNs_of_find found
      obtain ⟨flag, accepted⟩ := sub.flags_of_replaced
      have ledger := sub.ledger ((cancellation_withoutBid found gone).wellFormed wf) s id
      have removed := volumeUnder_removed (s := .buy) found gone side named s id
      change volumeUnder id (b.orders s) = volumeUnder id ((b.withoutBid q o).orders s) + _
        at removed
      simp only [placed_of_replaces found gone, BookStep.withdrawnUnder, flag, accepted,
        getOrder_of_found (t := .buy) found (by simp), Bool.true_and, decide_eq_true_eq]
      omega

/-- Under every id and on either side, what a run accepted is what rests, what was taken
out and what was traded. -/
theorem order_ledger {ts : List BookStep} {b : OrderBook} (run : BookRun ts b) (s : Side)
    (id : UInt64) :
    (ts.map (BookStep.acceptedUnder s id)).sum = volumeUnder id (b.orders s) +
      (ts.map (BookStep.withdrawnUnder s id)).sum + (ts.map (BookStep.tradedUnder s id)).sum := by
  induction run with
  | start => simp [volumeUnder]
  | @snoc ts b b' label run answer ih =>
      have wf := wellFormed_of_run run
      have step := (wf.answered answer).ledger wf (linked_of_run run) s id
      simp only [List.map_append, List.map_cons, List.map_nil, List.sum_append,
        List.sum_singleton]
      omega

theorem order_ledger_modified_bid :
    let run := replay [.newOrder (.plain .buy 0 1 100 10), .newOrder (.plain .sell 0 2 99 4),
      .modifyOrder 1 98 5 ⟨0, 7⟩ ⟨0, 0⟩, .cancelOrder 7]
    (run.1.map (BookStep.acceptedUnder .buy 1)).sum = 10 ∧
      (run.1.map (BookStep.withdrawnUnder .buy 1)).sum = 6 ∧
      10 = volumeUnder 1 (run.2.orders .buy) + 6 +
        (run.1.map (BookStep.tradedUnder .buy 1)).sum := by
  intro run
  have accepted : (run.1.map (BookStep.acceptedUnder .buy 1)).sum = 10 := by decide +kernel
  have withdrawn : (run.1.map (BookStep.withdrawnUnder .buy 1)).sum = 6 := by decide +kernel
  have ledger := order_ledger (replay_run [.newOrder (.plain .buy 0 1 100 10),
    .newOrder (.plain .sell 0 2 99 4), .modifyOrder 1 98 5 ⟨0, 7⟩ ⟨0, 0⟩, .cancelOrder 7]) .buy 1
  exact ⟨accepted, withdrawn, by rw [← accepted, ← withdrawn]; exact ledger⟩

theorem not_better_of_crosses {o r : Order} (contra : o.side.opposite = s)
    (crosses : priceCrosses o r = true) : ¬ betterPrice s o.priceQ4 r.priceQ4 := by
  rw [betterPrice_iff_rank]
  exact Nat.not_lt_of_le ((priceCrosses_iff_rank contra).mp crosses)

theorem Sweeps.proper {m m' : Matching s} {ms : List (Matching s)} (h : Sweeps m ms m')
    (contra : m.incoming.side.opposite = s)
    (valid : ∀ r ∈ m.opposite.orders, r.isValid = true) :
    ∀ f ∈ ms.filterMap Matching.fillOf, f.Proper m.incoming m.opposite.orders := by
  induction h with
  | stop h => simp
  | @consume m m' ms r rest first crosses left fits next ih =>
      have tail := orders_consume first
      rw [List.filterMap_cons_some (fillOf_consume first fits), List.forall_mem_cons]
      refine ⟨⟨rfl, contra.symm, Order.volume_pos (valid r (by simp [first])),
        ⟨r, by simp [first], rfl, rfl, Nat.le_refl _⟩, ?_⟩, ?_⟩
      · rw [contra]
        exact not_better_of_crosses contra crosses
      · intro f hf
        have proper := ih contra (fun x hx => valid x (by
          rw [tail] at hx
          simp [first, hx])) f hf
        rw [tail] at proper
        have later : f.Proper m.incoming rest :=
          ⟨proper.taker, proper.side, proper.positive, proper.maker, proper.limit⟩
        exact later.mono (by simp [first])
  | @reduce m r rest first crosses left exceeds =>
      have le := Nat.le_of_lt (UInt32.lt_iff_toNat_lt.mp exceeds)
      rw [List.filterMap_cons_some (fillOf_reduce first exceeds), List.filterMap_nil,
        List.forall_mem_singleton]
      refine ⟨rfl, contra.symm, toNat_pos left, ⟨r, by simp [first], rfl, rfl, le⟩, ?_⟩
      rw [contra]
      exact not_better_of_crosses contra crosses

theorem Sweeps.price_order {m m' : Matching s} {ms : List (Matching s)} (h : Sweeps m ms m')
    (contra : m.incoming.side.opposite = s)
    (valid : ∀ r ∈ m.opposite.orders, r.isValid = true) :
    (ms.filterMap Matching.fillOf).Pairwise (fun f g => ¬ betterPrice s g.priceQ4 f.priceQ4) ∧
      ∀ f ∈ ms.filterMap Matching.fillOf, ∀ r ∈ m'.opposite.orders,
        ¬ betterPrice s r.priceQ4 f.priceQ4 := by
  induction h with
  | stop h => simp
  | @consume m m' ms r rest first crosses left fits next ih =>
      have tail := orders_consume first
      have behind : ∀ x ∈ rest, ¬ betterPrice s x.priceQ4 r.priceQ4 := fun x hx =>
        not_betterPrice_of_lt_eq_false (not_lt_of_first first x hx)
      have later : ∀ x ∈ (m.consume r).opposite.orders, x.isValid = true := fun x hx =>
        valid x (by rw [tail] at hx; simp [first, hx])
      obtain ⟨sorted, best⟩ := ih contra later
      rw [List.filterMap_cons_some (fillOf_consume first fits), List.pairwise_cons,
        List.forall_mem_cons]
      refine ⟨⟨?_, sorted⟩, ?_, best⟩
      · intro f hf
        obtain ⟨x, hx, -, price, -⟩ := (next.proper contra later f hf).maker
        rw [tail] at hx
        rw [← price]
        exact behind x hx
      · intro x hx
        obtain ⟨y, hy, v, -, -, rfl⟩ := next.contra later x hx
        rw [tail] at hy
        exact behind y hy
  | @reduce m r rest first crosses left exceeds =>
      have perm := orders_reduce_perm (valid r (by simp [first])) first exceeds
      rw [List.filterMap_cons_some (fillOf_reduce first exceeds), List.filterMap_nil,
        List.forall_mem_singleton]
      refine ⟨List.pairwise_singleton _ _, ?_⟩
      intro x hx
      rcases List.mem_cons.mp (perm.mem_iff.mp hx) with rfl | hx
      · exact betterPrice_irrefl _
      · exact not_betterPrice_of_lt_eq_false (not_lt_of_first first x hx)

theorem Submission.fills {o : Order} {flags : ExecFlags} (sub : Submission b o flags b')
    (wf : b.WellFormed) :
    (b.fillsOn o).Pairwise (fun f g => ¬ betterPrice o.side.opposite g.priceQ4 f.priceQ4) ∧
      ∀ f ∈ b.fillsOn o, f.Proper o (b.orders o.side.opposite) ∧
        ∀ r ∈ b'.orders o.side.opposite, ¬ betterPrice o.side.opposite r.priceQ4 f.priceQ4 := by
  cases sub with
  | refused invalid => simp [fillsOn, invalid]
  | rests valid apart => simp [fillsOn, canCross_eq_false.mpr apart]
  | @filled valid m crosses sweep exhausted =>
      obtain ⟨sorted, best⟩ := sweep.price_order rfl (wf.valid _)
      simp only [fillsOn, valid, crosses, Bool.and_self, ite_true, orders, queue_setQueue]
      exact ⟨sorted, fun f hf => ⟨sweep.proper rfl (wf.valid _) f hf, best f hf⟩⟩
  | @partly valid m crosses sweep left =>
      obtain ⟨sorted, best⟩ := sweep.price_order rfl (wf.valid _)
      simp only [fillsOn, valid, crosses, Bool.and_self, ite_true, orders,
        queue_opposite_setQueue, queue_setQueue]
      exact ⟨sorted, fun f hf => ⟨sweep.proper rfl (wf.valid _) f hf, best f hf⟩⟩

/-- In every run each fill is on the terms of the maker it names and within the limit of
the taker, the best prices come first, and no better one is left behind. -/
theorem fills_at_best_price {ts : List BookStep} {b : OrderBook} (run : BookRun ts b) :
    ∀ t ∈ ts, ∀ b₀ o, t.placed = some (b₀, o) →
      t.fills.Pairwise (fun f g => ¬ betterPrice o.side.opposite g.priceQ4 f.priceQ4) ∧
        ∀ f ∈ t.fills, f.Proper o (b₀.orders o.side.opposite) ∧
          ∀ r ∈ t.after.orders o.side.opposite,
            ¬ betterPrice o.side.opposite r.priceQ4 f.priceQ4 := by
  intro t ht b₀ o placed
  obtain ⟨us, vs, rfl⟩ := List.append_of_mem ht
  obtain ⟨before, answer⟩ := run.split
  have wf := wellFormed_of_run before
  obtain ⟨flags, wf₀, sub⟩ := (wf.answered answer).submission wf placed
  unfold BookStep.fills
  rw [placed]
  exact sub.fills wf₀

theorem fills_at_best_price_two_asks :
    let b := (replay [.newOrder (.plain .sell 0 1 101 4), .newOrder (.plain .sell 0 2 100 5)]).2
    let o := Order.plain .buy 0 3 101 7
    ∃ ts b', BookRun ts b' ∧ ∃ t ∈ ts, t.placed = some (b, o) ∧
      t.fills = [⟨3, 2, .sell, 100, 5⟩, ⟨3, 1, .sell, 101, 2⟩] ∧
      t.fills.Pairwise (fun f g => ¬ betterPrice .sell g.priceQ4 f.priceQ4) ∧
      ∀ f ∈ t.fills, f.Proper o (b.orders .sell) ∧
        ∀ r ∈ t.after.orders .sell, ¬ betterPrice .sell r.priceQ4 f.priceQ4 := by
  intro b o
  have before : BookRun _ b :=
    replay_run [.newOrder (.plain .sell 0 1 101 4), .newOrder (.plain .sell 0 2 100 5)]
  obtain ⟨flags, b', answer, -⟩ := newOrder_submission (wellFormed_of_run before).valid o
  have run := before.snoc (show Answers b (.newOrder o, flags) b' from answer)
  have fills : b.fillsOn o = [⟨3, 2, .sell, 100, 5⟩, ⟨3, 1, .sell, 101, 2⟩] := by
    decide +kernel
  exact ⟨_, _, run, _, List.mem_append_right _ (List.mem_singleton_self _), rfl, fills,
    fills_at_best_price run _ (List.mem_append_right _ (List.mem_singleton_self _)) b o rfl⟩

end OrderBook

end FastLittleMarket
