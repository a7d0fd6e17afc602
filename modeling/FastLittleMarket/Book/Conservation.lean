import FastLittleMarket.Book.Greedy

/-!
Volume conservation over whole runs. The volume of the accepted orders of a side
is what rests there, what cancellations removed there and what was traded; one
traded total serves both sides. Ids may repeat.
-/

namespace FastLittleMarket.OrderBook

def Matching.fill {s : Side} (m : Matching s) : Nat :=
  match m.opposite.top with
  | none => 0
  | some best => (tradeVolume m.incoming best).toUInt32.toNat

/-- The volume `matchOrder` trades when `o` is submitted. -/
def tradedOn (b : OrderBook) (o : Order) : Nat :=
  if o.isValid && b.canCross o then ((matchRounds (b.matching o)).map Matching.fill).sum else 0

namespace BookStep

def traded (step : BookStep) : Nat :=
  match step.label.1 with
  | .newOrder o => step.before.tradedOn o
  | _ => 0

/-- The volume of the order of side `s` that the step accepted, if any. -/
def accepted (s : Side) (step : BookStep) : Nat :=
  match step.label with
  | (.newOrder o, flags) =>
      if flags.hasFlag .accepted && o.side = s then o.volume.toNat else 0
  | _ => 0

/-- The volume that the order of side `s` removed by a cancellation had left. -/
def cancelled (s : Side) (step : BookStep) : Nat :=
  match step.label with
  | (.cancelOrder id, flags) =>
      if flags.hasFlag .cancelled then
        match step.before.getOrder id with
        | .ok (some o) => if o.side = s then o.volume.toNat else 0
        | _ => 0
      else 0
  | _ => 0

end BookStep

variable {s : Side}

theorem fill_consume {m : Matching s} {r : Order} {rest : List Order}
    (first : m.opposite.orders = r :: rest) (fits : r.volume ≤ m.incoming.volume) :
    m.fill = r.volume.toNat := by
  simp only [Matching.fill, PriorityQueueAdapter.top_eq_head?, first, List.head?_cons,
    tradeVolume_toUInt32, min_of_le fits]

theorem fill_reduce {m : Matching s} {r : Order} {rest : List Order}
    (first : m.opposite.orders = r :: rest) (exceeds : m.incoming.volume < r.volume) :
    m.fill = m.incoming.volume.toNat := by
  simp only [Matching.fill, PriorityQueueAdapter.top_eq_head?, first, List.head?_cons,
    tradeVolume_toUInt32, min_of_lt exceeds]

theorem Sweeps.conserves {m m' : Matching s} {ms : List (Matching s)} (h : Sweeps m ms m')
    (valid : ∀ r ∈ m.opposite.orders, r.isValid = true) :
    m.incoming.volume.toNat = m'.incoming.volume.toNat + (ms.map Matching.fill).sum ∧
      totalVolume m.opposite.orders =
        totalVolume m'.opposite.orders + (ms.map Matching.fill).sum := by
  induction h with
  | stop h => simp
  | @consume m m' ms r rest first crosses left fits next ih =>
      have tail := orders_consume first
      have volume : (m.consume r).incoming.volume.toNat =
          m.incoming.volume.toNat - r.volume.toNat := UInt32.toNat_sub_of_le _ _ fits
      have le := UInt32.le_iff_toNat_le.mp fits
      obtain ⟨incoming, contra⟩ :=
        ih (fun x hx => valid x (by rw [tail] at hx; simp [first, hx]))
      rw [volume] at incoming
      rw [tail] at contra
      rw [List.map_cons, List.sum_cons, fill_consume first fits, first, totalVolume_cons]
      omega
  | @reduce m r rest first crosses left exceeds =>
      have lt := UInt32.lt_iff_toNat_lt.mp exceeds
      have perm := orders_reduce_perm (valid r (by simp [first])) first exceeds
      rw [totalVolume_perm perm, first, totalVolume_cons, totalVolume_cons]
      simp only [List.map_cons, List.map_nil, List.sum_singleton, fill_reduce first exceeds,
        Matching.reduce, UInt32.toNat_zero, UInt32.toNat_sub_of_le _ _ (UInt32.le_of_lt exceeds)]
      omega

theorem Submission.conserves {b b' : OrderBook} {o : Order} {flags : ExecFlags}
    (hsub : Submission b o flags b') (h : b.WellFormed) :
    totalVolume (b.orders o.side) +
        (if flags.hasFlag .accepted then o.volume.toNat else 0) =
        totalVolume (b'.orders o.side) + b.tradedOn o ∧
      totalVolume (b.orders o.side.opposite) =
        totalVolume (b'.orders o.side.opposite) + b.tradedOn o := by
  cases hsub with
  | refused invalid =>
      have flag : ExecFlags.hasFlag .rejected .accepted = false := by decide
      simp [tradedOn, invalid, flag]
  | rests valid apart =>
      have flag : ExecFlags.hasFlag .accepted .accepted = true := by decide
      have perm := PriorityQueueAdapter.orders_push_perm (b.queue o.side) valid
      have own := totalVolume_perm perm
      rw [totalVolume_cons] at own
      simp only [tradedOn, canCross_eq_false.mpr apart, Bool.and_false, Bool.false_eq_true,
        ite_false, flag, ite_true, orders, queue_addVolume, queue_setQueue,
        queue_opposite_setQueue, own]
      omega
  | @filled valid m crosses sweep exhausted =>
      have flag : ExecFlags.hasFlag (.fullyFilled ||| .accepted) .accepted = true := by decide
      obtain ⟨incoming, contra⟩ := sweep.conserves (h.valid _)
      rw [exhausted] at incoming
      change o.volume.toNat = _ at incoming
      change totalVolume (b.orders o.side.opposite) = _ at contra
      simp only [tradedOn, valid, crosses, Bool.and_self, ite_true, flag, orders,
        queue_setQueue_opposite, queue_setQueue] at *
      simp only [UInt32.toNat_zero, Nat.zero_add] at incoming
      omega
  | @partly valid m crosses sweep left =>
      have flag : ExecFlags.hasFlag (.partiallyFilled ||| .accepted) .accepted = true := by
        decide
      obtain ⟨incoming, contra⟩ := sweep.conserves (h.valid _)
      have residual := sweep.residual_isValid valid left
      have own := totalVolume_perm
        (PriorityQueueAdapter.orders_push_perm (b.queue o.side) residual)
      rw [totalVolume_cons] at own
      change o.volume.toNat = _ at incoming
      change totalVolume (b.orders o.side.opposite) = _ at contra
      simp only [tradedOn, valid, crosses, Bool.and_self, ite_true, flag, orders,
        queue_opposite_setQueue, queue_setQueue] at *
      omega

/-- The ledger of side `s` after the steps `ts`. -/
def Balanced (s : Side) (ts : List BookStep) (b : OrderBook) : Prop :=
  (ts.map (BookStep.accepted s)).sum =
    totalVolume (b.orders s) + (ts.map (BookStep.cancelled s)).sum +
      (ts.map BookStep.traded).sum

theorem balanced_newOrder {ts : List BookStep} {b b' : OrderBook} {o : Order}
    {flags : ExecFlags} (h : b.WellFormed) (balanced : Balanced s ts b)
    (answer : b.newOrder o = .ok (flags, b')) :
    Balanced s (ts ++ [⟨b, (.newOrder o, flags), b'⟩]) b' := by
  obtain ⟨own, contra⟩ := (submission_of_newOrder h.valid answer).conserves h
  unfold Balanced at *
  simp only [List.map_append, List.map_cons, List.map_nil, List.sum_append,
    List.sum_singleton, BookStep.accepted, BookStep.cancelled, BookStep.traded]
  rcases Side.eq_or_opposite s o.side with rfl | rfl
  · simp only [decide_true, Bool.and_true]
    omega
  · have other : (o.side = o.side.opposite) = False := by
      simpa using (Side.opposite_ne o.side).symm
    simp only [other, decide_false, Bool.and_false, Bool.false_eq_true, ite_false]
    omega

theorem getOrder_of_found {b : OrderBook} {id : UInt64} {o : Order} {t : Side}
    (found : (b.queue t).find id = .ok (some o))
    (first : t = .sell → b.buyOrders.find id = .ok none) : b.getOrder id = .ok (some o) := by
  cases t with
  | buy =>
      change b.buyOrders.find id = _ at found
      simp [getOrder, found]
  | sell =>
      change b.sellOrders.find id = _ at found
      simp [getOrder, first rfl, found]

theorem balanced_cancelOrder {ts : List BookStep} {b b' : OrderBook} {id : UInt64}
    {flags : ExecFlags} (h : b.WellFormed) (balanced : Balanced s ts b)
    (answer : b.cancelOrder id = .ok (flags, b')) :
    Balanced s (ts ++ [⟨b, (.cancelOrder id, flags), b'⟩]) b' := by
  have removal : totalVolume (b.orders s) = totalVolume (b'.orders s) +
      BookStep.cancelled s ⟨b, (.cancelOrder id, flags), b'⟩ := by
    cases cancellation_of_cancelOrder answer with
    | absent bids asks =>
        have flag : ExecFlags.hasFlag .rejected .cancelled = false := by decide
        simp [BookStep.cancelled, flag]
    | @removed t o q found first gone =>
        have flag : ExecFlags.hasFlag .cancelled .cancelled = true := by decide
        have perm := orders_subset_of_find found gone
        have side : o.side = t := h.sides t o (perm.mem_iff.mpr (by simp))
        have total := totalVolume_perm perm
        rw [totalVolume_cons] at total
        simp only [BookStep.cancelled, flag, ite_true, getOrder_of_found found first, side]
        rcases Side.eq_or_opposite s t with rfl | rfl
        · simp only [orders, queue_subVolume, queue_setQueue, ite_true] at *
          omega
        · simp [orders, (Side.opposite_ne t).symm]
  unfold Balanced at *
  simp only [List.map_append, List.map_cons, List.map_nil, List.sum_append,
    List.sum_singleton, BookStep.accepted, BookStep.traded]
  omega

/-- Volume is conserved on both sides by every run of submissions and
cancellations, with one traded total. -/
theorem run_conserves_volume {ts : List BookStep} {b : OrderBook} (run : BookRun ts b)
    (direct : ∀ t ∈ ts, t.label.1.Direct) :
    (ts.map (BookStep.accepted .buy)).sum =
        totalVolume b.buyOrders.orders + (ts.map (BookStep.cancelled .buy)).sum +
          (ts.map BookStep.traded).sum ∧
      (ts.map (BookStep.accepted .sell)).sum =
        totalVolume b.sellOrders.orders + (ts.map (BookStep.cancelled .sell)).sum +
          (ts.map BookStep.traded).sum := by
  have ledger : Balanced .buy ts b ∧ Balanced .sell ts b := by
    refine run.invariant_of (G := fun t => t.label.1.Direct)
      (I := fun ts b => Balanced .buy ts b ∧ Balanced .sell ts b)
      ⟨by simp [Balanced], by simp [Balanced]⟩ ?_ direct
    intro ts b label b' before balanced answer good
    have h := wellFormed_of_run before
    obtain ⟨request, flags⟩ := label
    cases request with
    | newOrder o =>
        exact ⟨balanced_newOrder h balanced.1 answer, balanced_newOrder h balanced.2 answer⟩
    | cancelOrder id =>
        exact ⟨balanced_cancelOrder h balanced.1 answer,
          balanced_cancelOrder h balanced.2 answer⟩
    | modifyOrder id p v g u => exact good.elim
  exact ledger

theorem run_conserves_volume_cancelled_rest :
    let run := replay [.newOrder (.plain .buy 0 1 100 10), .newOrder (.plain .sell 0 2 99 4),
      .cancelOrder 1]
    (run.1.map (BookStep.accepted .buy)).sum = 10 ∧
      (run.1.map (BookStep.cancelled .buy)).sum = 6 ∧
      10 = totalVolume run.2.buyOrders.orders + 6 + (run.1.map BookStep.traded).sum := by
  intro run
  have accepted : (run.1.map (BookStep.accepted .buy)).sum = 10 := by decide +kernel
  have cancelled : (run.1.map (BookStep.cancelled .buy)).sum = 6 := by decide +kernel
  have ledger := (run_conserves_volume (replay_run [.newOrder (.plain .buy 0 1 100 10),
    .newOrder (.plain .sell 0 2 99 4), .cancelOrder 1]) (fun t ht => by
      have requested := request_mem_of_replayFrom step ht
      simp only [List.mem_cons, List.not_mem_nil, or_false] at requested
      rcases requested with h | h | h <;> rw [h] <;> trivial)).1
  exact ⟨accepted, cancelled, by rw [← accepted, ← cancelled]; exact ledger⟩

end FastLittleMarket.OrderBook
