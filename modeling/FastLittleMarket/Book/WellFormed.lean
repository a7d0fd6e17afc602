import FastLittleMarket.Book.Steps

/-!
Reachable books are well formed: every order rests on its own side and is
valid, and no bid reaches an ask. So no assertion of the book can fire, and the
tops are the best prices. Duplicate ids are allowed throughout.
-/

namespace FastLittleMarket.OrderBook

/-- An order of side `s` at price `p` does not reach a contra order at price `q`. -/
def Apart : Side → UInt32 → UInt32 → Prop
  | .buy, p, q => p < q
  | .sell, p, q => q < p

theorem priceCrosses_eq_false {o r : Order} :
    priceCrosses o r = false ↔ Apart o.side o.priceQ4 r.priceQ4 := by
  unfold priceCrosses Apart
  cases o.side <;> simp

theorem Apart.symm {s : Side} {p q : UInt32} (h : Apart s p q) : Apart s.opposite q p := by
  cases s <;> exact h

theorem Apart.of_not_better {s : Side} {p q r : UInt32} (h : Apart s p q)
    (best : ¬ betterPrice s.opposite r q) : Apart s p r := by
  cases s <;> simp only [Apart, betterPrice, Side.opposite, UInt32.not_lt] at *
  · exact UInt32.lt_of_le_of_lt best h
  · exact UInt32.lt_of_lt_of_le h best

structure WellFormed (b : OrderBook) : Prop where
  sides : ∀ s, ∀ o ∈ b.orders s, o.side = s
  valid : b.AllValid
  uncrossed : ∀ s, ∀ x ∈ b.orders s, ∀ y ∈ b.orders s.opposite, Apart s x.priceQ4 y.priceQ4

theorem wellFormed_new : new.WellFormed where
  sides := by simp
  valid := by simp [AllValid]
  uncrossed := by simp

/-- A first order that does not cross stands for its whole queue. -/
theorem apart_of_head {s : Side} {q : PriorityQueueAdapter (comparator s)} {o : Order}
    (hs : o.side.opposite = s)
    (h : ∀ r ∈ q.orders.head?, priceCrosses o r = false) :
    ∀ y ∈ q.orders, Apart o.side o.priceQ4 y.priceQ4 := by
  intro y hy
  cases htop : q.orders.head? with
  | none => simp [List.head?_eq_none_iff.mp htop] at hy
  | some r =>
      rw [← PriorityQueueAdapter.top_eq_head?] at htop
      obtain ⟨rest, hrest, first⟩ := PriorityQueueAdapter.top_spec htop
      have apart := priceCrosses_eq_false.mp (h r (by simp [hrest]))
      refine apart.of_not_better ?_
      rw [hs]
      exact not_betterPrice_of_lt_eq_false (first y hy)

/-- Two sides given as lists: what `WellFormed` says of a book whose own side of
`s` holds `own` and whose other side holds `contra`. -/
theorem wellFormed_of_sides {b : OrderBook} (s : Side) (own contra : List Order)
    (hown : ∀ o, o ∈ b.orders s ↔ o ∈ own)
    (hcontra : ∀ o, o ∈ b.orders s.opposite ↔ o ∈ contra)
    (ownOk : ∀ o ∈ own, o.side = s ∧ o.isValid = true)
    (contraOk : ∀ o ∈ contra, o.side = s.opposite ∧ o.isValid = true)
    (apart : ∀ x ∈ own, ∀ y ∈ contra, Apart s x.priceQ4 y.priceQ4) : b.WellFormed := by
  refine ⟨?_, ?_, ?_⟩
  · intro t o ho
    rcases Side.eq_or_opposite t s with rfl | rfl
    · exact (ownOk o ((hown o).mp ho)).1
    · exact (contraOk o ((hcontra o).mp ho)).1
  · intro t o ho
    rcases Side.eq_or_opposite t s with rfl | rfl
    · exact (ownOk o ((hown o).mp ho)).2
    · exact (contraOk o ((hcontra o).mp ho)).2
  · intro t x hx y hy
    rcases Side.eq_or_opposite t s with rfl | rfl
    · exact apart x ((hown x).mp hx) y ((hcontra y).mp hy)
    · rw [Side.opposite_opposite] at hy
      exact (apart y ((hown y).mp hy) x ((hcontra x).mp hx)).symm

theorem WellFormed.own {b : OrderBook} (h : b.WellFormed) (s : Side) :
    ∀ o ∈ b.orders s, o.side = s ∧ o.isValid = true :=
  fun o ho => ⟨h.sides s o ho, h.valid s o ho⟩

theorem WellFormed.contraOk {b : OrderBook} (h : b.WellFormed) {s : Side}
    {q : PriorityQueueAdapter (comparator s)}
    (contra : ∀ r' ∈ q.orders, ∃ r ∈ (b.queue s).orders, Shrunk r r') :
    ∀ o ∈ q.orders, o.side = s ∧ o.isValid = true := by
  intro o ho
  obtain ⟨r, hr, shrunk⟩ := contra o ho
  obtain ⟨side, valid⟩ := h.own s r hr
  refine ⟨?_, shrunk.isValid valid⟩
  obtain ⟨v, -, -, rfl⟩ := shrunk
  exact side

theorem Submission.wellFormed {b b' : OrderBook} {o : Order} {flags : ExecFlags}
    (hsub : Submission b o flags b') (h : b.WellFormed) : b'.WellFormed := by
  cases hsub with
  | refused invalid => exact h
  | rests valid apart =>
      have perm := PriorityQueueAdapter.orders_push_perm (b.queue o.side) valid
      refine wellFormed_of_sides o.side (o :: b.orders o.side) (b.orders o.side.opposite)
        ?_ ?_ ?_ (h.own _) ?_
      · intro x
        simpa [orders] using perm.mem_iff
      · intro x
        simp [orders]
      · intro x hx
        rcases List.mem_cons.mp hx with rfl | hx
        · exact ⟨rfl, valid⟩
        · exact h.own _ x hx
      · intro x hx y hy
        rcases List.mem_cons.mp hx with rfl | hx
        · exact apart_of_head rfl apart y hy
        · exact h.uncrossed _ x hx y hy
  | @filled valid m crosses sweep exhausted =>
      have contra := sweep.contra (h.valid _)
      refine wellFormed_of_sides o.side (b.orders o.side) m.opposite.orders
        ?_ ?_ (h.own _) (h.contraOk contra) ?_
      · intro x
        simp [orders]
      · intro x
        simp [orders]
      · intro x hx y hy
        obtain ⟨r, hr, v, -, -, rfl⟩ := contra y hy
        exact h.uncrossed _ x hx r hr
  | @partly valid m crosses sweep left =>
      have contra := sweep.contra (h.valid _)
      have incoming := sweep.incoming_eq
      have residual := sweep.residual_isValid valid left
      have perm := PriorityQueueAdapter.orders_push_perm (b.queue o.side) residual
      have apart := apart_of_head (o := m.incoming) (by rw [incoming]; rfl)
        (sweep.exit.resolve_left left)
      refine wellFormed_of_sides o.side (m.incoming :: b.orders o.side) m.opposite.orders
        ?_ ?_ ?_ (h.contraOk contra) ?_
      · intro x
        simpa [orders] using perm.mem_iff
      · intro x
        simp [orders]
      · intro x hx
        rcases List.mem_cons.mp hx with rfl | hx
        · exact ⟨by rw [incoming]; rfl, residual⟩
        · exact h.own _ x hx
      · intro x hx y hy
        rcases List.mem_cons.mp hx with rfl | hx
        · rw [incoming] at apart ⊢
          exact apart y hy
        · obtain ⟨r, hr, v, -, -, rfl⟩ := contra y hy
          exact h.uncrossed _ x hx r hr

/-- Only the submitted order joins the book, on its own side. -/
theorem Submission.rested {b b' : OrderBook} {o : Order} {flags : ExecFlags}
    (hsub : Submission b o flags b') (h : b.WellFormed) (s : Side) {x : Order}
    (hx : x ∈ b'.orders s) :
    (s = o.side ∧ x.idNs = o.idNs) ∨ ∃ y ∈ b.orders s, y.idNs = x.idNs := by
  cases hsub with
  | refused invalid => exact .inr ⟨x, hx, rfl⟩
  | rests valid apart =>
      have perm := PriorityQueueAdapter.orders_push_perm (b.queue o.side) valid
      rcases Side.eq_or_opposite s o.side with rfl | rfl
      · simp only [orders, queue_addVolume, queue_setQueue] at hx
        rcases List.mem_cons.mp (perm.mem_iff.mp hx) with rfl | old
        · exact .inl ⟨rfl, rfl⟩
        · exact .inr ⟨x, old, rfl⟩
      · simp only [orders, queue_addVolume, queue_opposite_setQueue] at hx
        exact .inr ⟨x, hx, rfl⟩
  | @filled valid m crosses sweep exhausted =>
      rcases Side.eq_or_opposite s o.side with rfl | rfl
      · simp only [orders, queue_setQueue_opposite] at hx
        exact .inr ⟨x, hx, rfl⟩
      · simp only [orders, queue_setQueue] at hx
        obtain ⟨r, hr, v, -, -, rfl⟩ := sweep.contra (h.valid _) x hx
        exact .inr ⟨r, hr, rfl⟩
  | @partly valid m crosses sweep left =>
      have residual := sweep.residual_isValid valid left
      have perm := PriorityQueueAdapter.orders_push_perm (b.queue o.side) residual
      rcases Side.eq_or_opposite s o.side with rfl | rfl
      · simp only [orders, queue_setQueue] at hx
        rcases List.mem_cons.mp (perm.mem_iff.mp hx) with rfl | old
        · exact .inl ⟨rfl, sweep.idNs_eq⟩
        · exact .inr ⟨x, old, rfl⟩
      · simp only [orders, queue_opposite_setQueue, queue_setQueue] at hx
        obtain ⟨r, hr, v, -, -, rfl⟩ := sweep.contra (h.valid _) x hx
        exact .inr ⟨r, hr, rfl⟩

theorem orders_subset_of_find {b : OrderBook} {s : Side} {id : UInt64}
    {q : PriorityQueueAdapter (comparator s)} {o : Order}
    (found : (b.queue s).find id = .ok (some o)) (gone : (b.queue s).remove id = .ok (true, q)) :
    (b.orders s).Perm (o :: q.orders) := by
  obtain ⟨q', hremove, perm⟩ := PriorityQueueAdapter.remove_of_find found
  rw [gone] at hremove
  cases hremove
  exact perm

theorem Cancellation.wellFormed {b b' : OrderBook} {id : UInt64} {flags : ExecFlags}
    (hcancel : Cancellation b id flags b') (h : b.WellFormed) : b'.WellFormed := by
  cases hcancel with
  | absent bids asks => exact h
  | @removed s o q found first gone =>
      have perm := orders_subset_of_find found gone
      have sub : ∀ x ∈ q.orders, x ∈ b.orders s := fun x hx =>
        perm.mem_iff.mpr (List.mem_cons_of_mem _ hx)
      refine wellFormed_of_sides s q.orders (b.orders s.opposite) ?_ ?_
        (fun x hx => h.own s x (sub x hx)) (h.own _)
        (fun x hx y hy => h.uncrossed s x (sub x hx) y hy)
      · intro x
        simp [orders]
      · intro x
        simp [orders]

/-- The book after a modification has taken the bid `o` out, with the queue `q` left. -/
def withoutBid (b : OrderBook) (q : PriorityQueueAdapter (comparator .buy)) (o : Order) :
    OrderBook :=
  (b.setQueue .buy q).subVolume o.priceQ4 .buy o.volume

theorem cancellation_withoutBid {b : OrderBook} {id : UInt64} {o : Order}
    {q : PriorityQueueAdapter (comparator .buy)} (found : b.buyOrders.find id = .ok (some o))
    (gone : b.buyOrders.remove id = .ok (true, q)) :
    Cancellation b id .cancelled (b.withoutBid q o) :=
  .removed (s := .buy) found (by simp) gone

/-- Every answer of a book, by the outcomes of the calls the request makes. -/
inductive Answered (b : OrderBook) : Request × ExecFlags → OrderBook → Prop
  | submits {o : Order} {flags : ExecFlags} {b' : OrderBook} (sub : Submission b o flags b') :
      Answered b (.newOrder o, flags) b'
  | cancels {id : UInt64} {flags : ExecFlags} {b' : OrderBook}
      (cancel : Cancellation b id flags b') : Answered b (.cancelOrder id, flags) b'
  | misses {id : UInt64} {p v : UInt32} {g : GlobalSequencer} {u : UnsetFlags}
      (found : b.buyOrders.find id = .ok none) :
      Answered b (.modifyOrder id p v g u, .rejected) b
  | replaces {id : UInt64} {p v : UInt32} {g : GlobalSequencer} {u : UnsetFlags} {o : Order}
      {q : PriorityQueueAdapter (comparator .buy)} {newFlags : ExecFlags} {b' : OrderBook}
      (found : b.buyOrders.find id = .ok (some o))
      (gone : b.buyOrders.remove id = .ok (true, q))
      (sub : Submission (b.withoutBid q o) (replacement o p v g u).1 newFlags b') :
      Answered b (.modifyOrder id p v g u, .cancelled ||| newFlags) b'

theorem replacement_fields (o : Order) (p v : UInt32) (g : GlobalSequencer) (u : UnsetFlags) :
    (replacement o p v g u).1 =
      { idNs := Order.pack (Order.unpack o.idNs).id g.nextTimestampNs.1.toUInt32
        priceQ4 := p
        volume := v
        side := o.side
        type := u.type
        tim := u.tim
        client := Order.copyClient (Order.clientView o.client) } := by
  cases hs : o.side <;> simp [replacement, Order.new, hs]

theorem WellFormed.mem_of_find {b : OrderBook} (h : b.WellFormed) {id : UInt64} {o : Order}
    (found : b.buyOrders.find id = .ok (some o)) :
    o ∈ b.orders .buy ∧ o.side = .buy ∧ o.isValid = true := by
  have mem : o ∈ b.orders .buy := PriorityQueueAdapter.mem_orders_of_find found
  exact ⟨mem, h.sides .buy o mem, h.valid .buy o mem⟩

theorem WellFormed.replacement_side {b : OrderBook} (h : b.WellFormed) {id : UInt64} {o : Order}
    (found : b.buyOrders.find id = .ok (some o)) (p v : UInt32) (g : GlobalSequencer)
    (u : UnsetFlags) : (replacement o p v g u).1.side = .buy := by
  rw [replacement_fields]
  exact (h.mem_of_find found).2.1

theorem erase_of_gone {b : OrderBook} {id : UInt64} {o : Order}
    {q : PriorityQueueAdapter (comparator .buy)} (found : b.buyOrders.find id = .ok (some o))
    (gone : b.buyOrders.remove id = .ok (true, q)) :
    ((b.orders .buy).erase o).Perm q.orders := by
  have erased := (orders_subset_of_find (s := .buy) found gone).erase o
  rwa [List.erase_cons_head] at erased

theorem WellFormed.modifyOrder_of_find {b : OrderBook} (h : b.WellFormed) {id : UInt64}
    {o : Order} (found : b.buyOrders.find id = .ok (some o)) (p v : UInt32)
    (g : GlobalSequencer) (u : UnsetFlags) :
    ∃ q newFlags b', b.buyOrders.remove id = .ok (true, q) ∧
      Submission (b.withoutBid q o) (replacement o p v g u).1 newFlags b' ∧
      b.modifyOrder id p v g u = .ok (.cancelled ||| newFlags, b', (replacement o p v g u).2) := by
  obtain ⟨q, gone, hcancel⟩ := cancelOn_of_find (b := b) (s := .buy) found
  have hcancel : b.cancelOrder id = .ok (.cancelled, b.withoutBid q o) := by
    simp only [cancelOrder, found, hcancel, withoutBid]
  have h₁ := (cancellation_withoutBid found gone).wellFormed h
  obtain ⟨newFlags, b', hnew, sub⟩ := newOrder_submission h₁.valid (replacement o p v g u).1
  have kept : ExecFlags.hasFlag .cancelled .rejected = false := by decide
  refine ⟨q, newFlags, b', gone, sub, ?_⟩
  simp only [modifyOrder, found, hcancel, kept, hnew, Bool.false_eq_true, ite_false]

theorem modifyOrder_of_absent {b : OrderBook} {id : UInt64}
    (found : b.buyOrders.find id = .ok none) (p v : UInt32) (g : GlobalSequencer)
    (u : UnsetFlags) : b.modifyOrder id p v g u = .ok (.rejected, b, g) := by
  simp only [modifyOrder, found]

theorem WellFormed.answered {b b' : OrderBook} {label : Request × ExecFlags}
    (h : b.WellFormed) (answer : Answers b label b') : Answered b label b' := by
  obtain ⟨request, flags⟩ := label
  cases request with
  | newOrder o => exact .submits (submission_of_newOrder h.valid answer)
  | cancelOrder id => exact .cancels (cancellation_of_cancelOrder answer)
  | modifyOrder id p v g u =>
      simp only [Answers, step] at answer
      cases hb : b.buyOrders.find id with
      | error e => simp [modifyOrder, hb, Except.map] at answer
      | ok found =>
          cases found with
          | none =>
              simp only [modifyOrder_of_absent hb, Except.map, Except.ok.injEq,
                Prod.mk.injEq] at answer
              obtain ⟨rfl, rfl⟩ := answer
              exact .misses hb
          | some o =>
              obtain ⟨q, newFlags, b₂, gone, sub, hm⟩ := h.modifyOrder_of_find hb p v g u
              simp only [hm, Except.map, Except.ok.injEq, Prod.mk.injEq] at answer
              obtain ⟨rfl, rfl⟩ := answer
              exact .replaces hb gone sub

theorem Answered.wellFormed {b b' : OrderBook} {label : Request × ExecFlags}
    (h : b.WellFormed) (answered : Answered b label b') : b'.WellFormed := by
  cases answered with
  | submits sub => exact sub.wellFormed h
  | cancels cancel => exact cancel.wellFormed h
  | misses found => exact h
  | replaces found gone sub =>
      exact sub.wellFormed ((cancellation_withoutBid found gone).wellFormed h)

theorem Answers.wellFormed {b b' : OrderBook} {label : Request × ExecFlags}
    (h : b.WellFormed) (answer : Answers b label b') : b'.WellFormed :=
  (h.answered answer).wellFormed h

theorem wellFormed_of_run {steps : List BookStep} {b : OrderBook} (run : BookRun steps b) :
    b.WellFormed :=
  Run.invariant wellFormed_new (fun _ _ _ h answer => Answers.wellFormed h answer) run

theorem find_error {C : Comparator Order} {q : PriorityQueueAdapter C} {id : UInt64}
    {e : BookFault} (h : q.find id = .error e) : e = .erasedIterator := by
  unfold PriorityQueueAdapter.find at h
  cases hi : q.idToIter id with
  | none => simp [hi] at h
  | some it =>
      cases hd : q.priceSorted.deref it <;> simp [hi, hd] at h
      exact h.symm

theorem cancelOrder_error {b : OrderBook} {id : UInt64} {e : BookFault}
    (h : b.cancelOrder id = .error e) : e = .erasedIterator := by
  unfold cancelOrder at h
  cases hb : b.buyOrders.find id with
  | error e' =>
      simp only [hb, Except.error.injEq] at h
      exact h ▸ find_error hb
  | ok found =>
      cases found with
      | some o =>
          obtain ⟨q, -, hcancel⟩ := cancelOn_of_find (b := b) (s := .buy) hb
          simp [hb, hcancel] at h
      | none =>
          cases hs : b.sellOrders.find id with
          | error e' =>
              simp only [hb, hs, Except.error.injEq] at h
              exact h ▸ find_error hs
          | ok found =>
              cases found with
              | some o =>
                  obtain ⟨q, -, hcancel⟩ := cancelOn_of_find (b := b) (s := .sell) hs
                  simp [hb, hs, hcancel] at h
              | none => simp [hb, hs] at h

/-- An erased iterator is the only way a request on a well-formed book faults. -/
theorem WellFormed.step_error {b : OrderBook} (h : b.WellFormed) {request : Request}
    {e : BookFault} (fault : b.step request = .error e) : e = .erasedIterator := by
  cases request with
  | newOrder o =>
      obtain ⟨flags, b', hok, -⟩ := newOrder_submission h.valid o
      simp [step, hok] at fault
  | cancelOrder id => exact cancelOrder_error fault
  | modifyOrder id p v g u =>
      unfold step modifyOrder at fault
      cases hb : b.buyOrders.find id with
      | error e' =>
          simp only [hb, Except.map, Except.error.injEq] at fault
          exact fault ▸ find_error hb
      | ok found =>
          cases found with
          | none => simp [hb, Except.map] at fault
          | some o =>
              cases hc : b.cancelOrder id with
              | error e' =>
                  simp only [hb, hc, Except.map, Except.error.injEq] at fault
                  exact fault ▸ cancelOrder_error hc
              | ok r =>
                  obtain ⟨flags, b₁⟩ := r
                  have h₁ := (cancellation_of_cancelOrder hc).wellFormed h
                  obtain ⟨newFlags, b₂, hnew, -⟩ :=
                    newOrder_submission h₁.valid (replacement o p v g u).1
                  simp only [hb, hc, hnew] at fault
                  split at fault <;> simp [Except.map] at fault

/-- `top` of a queue of side `s` rests there at the best price, and is missing only
from an empty queue. -/
theorem top_best {s : Side} (q : PriorityQueueAdapter (comparator s)) :
    (q.top = none ↔ q.orders = []) ∧
      ∀ t, q.top = some t → t ∈ q.orders ∧
        ∀ o ∈ q.orders, ¬ betterPrice s o.priceQ4 t.priceQ4 := by
  refine ⟨?_, ?_⟩
  · rw [PriorityQueueAdapter.top_eq_head?, List.head?_eq_none_iff]
  · intro t ht
    obtain ⟨rest, hrest, first⟩ := PriorityQueueAdapter.top_spec ht
    exact ⟨by simp [hrest], fun o ho => not_betterPrice_of_lt_eq_false (first o ho)⟩

/-- Every book that requests of any kind, with any arguments, reach from the empty
one is well formed and uncrossed, and no assertion can fire on it. -/
theorem reachable_book_uncrossed {steps : List BookStep} {b : OrderBook}
    (run : BookRun steps b) :
    (∀ o ∈ b.buyOrders.orders, o.side = .buy ∧ o.isValid = true) ∧
      (∀ o ∈ b.sellOrders.orders, o.side = .sell ∧ o.isValid = true) ∧
      (∀ request e, b.step request = .error e → e = .erasedIterator) ∧
      (b.getTopOfBook.bid = none ↔ b.buyOrders.orders = []) ∧
      (∀ t, b.getTopOfBook.bid = some t → t ∈ b.buyOrders.orders ∧
        ∀ o ∈ b.buyOrders.orders, o.priceQ4 ≤ t.priceQ4) ∧
      (b.getTopOfBook.ask = none ↔ b.sellOrders.orders = []) ∧
      (∀ t, b.getTopOfBook.ask = some t → t ∈ b.sellOrders.orders ∧
        ∀ o ∈ b.sellOrders.orders, t.priceQ4 ≤ o.priceQ4) ∧
      (∀ bid ask, b.getTopOfBook.bid = some bid → b.getTopOfBook.ask = some ask →
        bid.priceQ4 < ask.priceQ4) := by
  have h := wellFormed_of_run run
  obtain ⟨noBid, bestBid⟩ := top_best b.buyOrders
  obtain ⟨noAsk, bestAsk⟩ := top_best b.sellOrders
  refine ⟨h.own .buy, h.own .sell, fun _ _ => h.step_error, noBid, ?_, noAsk, ?_, ?_⟩
  · intro t ht
    obtain ⟨hmem, best⟩ := bestBid t ht
    exact ⟨hmem, fun o ho => UInt32.not_lt.mp (best o ho)⟩
  · intro t ht
    obtain ⟨hmem, best⟩ := bestAsk t ht
    exact ⟨hmem, fun o ho => UInt32.not_lt.mp (best o ho)⟩
  · intro bid ask hbid hask
    exact h.uncrossed .buy bid (bestBid bid hbid).1 ask (bestAsk ask hask).1

theorem reachable_book_uncrossed_two_sides :
    let b := (replay [.newOrder (.plain .buy 1 1 99 5), .newOrder (.plain .buy 2 2 100 5),
      .newOrder (.plain .sell 3 3 101 5)]).2
    b.getTopOfBook = ⟨some (.plain .buy 2 2 100 5), some (.plain .sell 3 3 101 5)⟩ ∧
      (∀ o ∈ b.buyOrders.orders, o.priceQ4 ≤ 100) ∧
      ∀ request e, b.step request = .error e → e = .erasedIterator := by
  intro b
  have h := reachable_book_uncrossed (replay_run
    [.newOrder (.plain .buy 1 1 99 5), .newOrder (.plain .buy 2 2 100 5),
      .newOrder (.plain .sell 3 3 101 5)])
  have top : b.getTopOfBook = ⟨some (.plain .buy 2 2 100 5), some (.plain .sell 3 3 101 5)⟩ := by
    decide +kernel
  exact ⟨top, (h.2.2.2.2.1 _ (congrArg TopOfBook.bid top)).2, h.2.2.1⟩

end FastLittleMarket.OrderBook
