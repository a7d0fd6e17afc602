import FastLittleMarket.Book.Resting

/-!
Buying and selling are mirror images of each other.

An order at `p` on one side corresponds to one at `K - p` on the other. The two
comparators, the crossing test and the queue selection agree under this, so two runs
of corresponding submissions give the same answers and leave corresponding queues.
-/

namespace FastLittleMarket

/-- `o'` is `o` on the other side, at `K` minus its price; both prices lie strictly
between 0 and `K`. -/
structure Mirrored (K : Nat) (o o' : Order) : Prop where
  price : o.priceQ4.toNat + o'.priceQ4.toNat = K
  positive : o.priceQ4 ≠ 0 ∧ o'.priceQ4 ≠ 0
  others : o' = { o with priceQ4 := o'.priceQ4, side := o.side.opposite }

namespace Mirrored

variable {K : Nat} {o o' r r' : Order}

theorem side (h : Mirrored K o o') : o'.side = o.side.opposite := by
  rw [h.others]

theorem volume (h : Mirrored K o o') : o'.volume = o.volume := by
  rw [h.others]

theorem timestamp (h : Mirrored K o o') : o'.timestamp = o.timestamp := by
  rw [h.others]
  rfl

theorem symm (h : Mirrored K o o') : Mirrored K o' o where
  price := by
    rw [Nat.add_comm]
    exact h.price
  positive := h.positive.symm
  others := by
    rw [h.others]
    simp

theorem withVolume (h : Mirrored K o o') (v : UInt32) :
    Mirrored K { o with volume := v } { o' with volume := v } where
  price := h.price
  positive := h.positive
  others := by
    rw [h.others]

theorem isValid (h : Mirrored K o o') : o'.isValid = o.isValid := by
  have client : o'.client = o.client := by rw [h.others]
  simp [Order.isValid, h.volume, client, h.positive.1, h.positive.2]

/-- Of mirrored prices the smaller is the larger. -/
theorem price_lt_iff (h : Mirrored K o o') (hr : Mirrored K r r') :
    o'.priceQ4 < r'.priceQ4 ↔ r.priceQ4 < o.priceQ4 := by
  have ho := h.price
  have hr := hr.price
  rw [UInt32.lt_iff_toNat_lt, UInt32.lt_iff_toNat_lt]
  omega

theorem price_eq_iff (h : Mirrored K o o') (hr : Mirrored K r r') :
    o'.priceQ4 = r'.priceQ4 ↔ o.priceQ4 = r.priceQ4 := by
  have ho := h.price
  have hr := hr.price
  rw [← UInt32.toNat_inj, ← UInt32.toNat_inj]
  omega

theorem lt_iff (s : Side) (h : Mirrored K o o') (hr : Mirrored K r r') :
    (comparator s).lt o r = true ↔ (comparator s.opposite).lt o' r' = true := by
  rw [comparator_lt_iff, comparator_lt_iff, h.timestamp, hr.timestamp, h.price_eq_iff hr]
  cases s with
  | buy => simp only [betterPrice, Side.opposite, h.price_lt_iff hr]
  | sell => simp only [betterPrice, Side.opposite, hr.price_lt_iff h]

theorem priceCrosses (h : Mirrored K o o') (hr : Mirrored K r r') :
    OrderBook.priceCrosses o' r' = OrderBook.priceCrosses o r := by
  rw [Bool.eq_iff_iff, ← Bool.not_eq_false, ← Bool.not_eq_false]
  apply not_congr
  rw [OrderBook.priceCrosses_eq_false, OrderBook.priceCrosses_eq_false, h.side]
  cases o.side with
  | buy => exact hr.price_lt_iff h
  | sell => exact h.price_lt_iff hr

end Mirrored

namespace OrderBook

variable {K : Nat}

abbrev MirroredQueues (K : Nat) {C C' : Comparator Order} (q : PriorityQueueAdapter C)
    (q' : PriorityQueueAdapter C') : Prop :=
  List.Forall₂ (Mirrored K) q.orders q'.orders

/-- Each queue of one book is the mirror image of the other queue of the other. -/
def MirroredBooks (K : Nat) (b b' : OrderBook) : Prop :=
  ∀ s, List.Forall₂ (Mirrored K) (b.orders s) (b'.orders s.opposite)

structure MirroredMatchings (K : Nat) {s t : Side} (m : Matching s) (m' : Matching t) :
    Prop where
  incoming : Mirrored K m.incoming m'.incoming
  opposite : MirroredQueues K m.opposite m'.opposite

theorem MirroredQueues.push {s t : Side} (sides : t = s.opposite)
    {q : PriorityQueueAdapter (comparator s)} {q' : PriorityQueueAdapter (comparator t)}
    {o o' : Order} (h : MirroredQueues K q q') (mirrored : Mirrored K o o')
    (valid : o.isValid = true) : MirroredQueues K (q.push o).2 (q'.push o').2 := by
  subst sides
  unfold MirroredQueues
  rw [q.orders_push valid, q'.orders_push (mirrored.isValid.trans valid)]
  exact forall₂_orderedInsert (fun _ _ _ _ h hr => h.lt_iff s hr) mirrored h

section Matchings

variable {s t : Side} {m m₁ : Matching s} {m' m₁' : Matching t} {ms : List (Matching s)}
  {ms' : List (Matching t)}

theorem MirroredMatchings.heads (h : MirroredMatchings K m m') {r r' : Order}
    {rest rest' : List Order} (first : m.opposite.orders = r :: rest)
    (first' : m'.opposite.orders = r' :: rest') :
    Mirrored K r r' ∧ List.Forall₂ (Mirrored K) rest rest' := by
  have opposite := h.opposite
  unfold MirroredQueues at opposite
  rw [first, first'] at opposite
  exact List.forall₂_cons.mp opposite

theorem MirroredMatchings.symm (h : MirroredMatchings K m m') : MirroredMatchings K m' m where
  incoming := h.incoming.symm
  opposite := (h.opposite.imp fun _ _ mirrored => mirrored.symm).flip

theorem MirroredMatchings.consume (h : MirroredMatchings K m m') {r r' : Order}
    {rest rest' : List Order} (first : m.opposite.orders = r :: rest)
    (first' : m'.opposite.orders = r' :: rest') :
    MirroredMatchings K (m.consume r) (m'.consume r') := by
  obtain ⟨head, tail⟩ := h.heads first first'
  refine ⟨?_, ?_⟩
  · have volume : m'.incoming.volume - r'.volume = m.incoming.volume - r.volume := by
      rw [h.incoming.volume, head.volume]
    simp only [Matching.consume, volume]
    exact h.incoming.withVolume _
  · unfold MirroredQueues
    rw [orders_consume first, orders_consume first']
    exact tail

theorem MirroredMatchings.reduce (sides : t = s.opposite) (h : MirroredMatchings K m m')
    {r r' : Order} {rest rest' : List Order} (valid : r.isValid = true)
    (first : m.opposite.orders = r :: rest) (first' : m'.opposite.orders = r' :: rest')
    (exceeds : m.incoming.volume < r.volume) :
    MirroredMatchings K (m.reduce r) (m'.reduce r') := by
  obtain ⟨head, tail⟩ := h.heads first first'
  refine ⟨h.incoming.withVolume 0, ?_⟩
  have volume : r'.volume - m'.incoming.volume = r.volume - m.incoming.volume := by
    rw [h.incoming.volume, head.volume]
  have popped : MirroredQueues K m.opposite.pop.2 m'.opposite.pop.2 := by
    unfold MirroredQueues
    rw [PriorityQueueAdapter.orders_pop first, PriorityQueueAdapter.orders_pop first']
    exact tail
  simp only [Matching.reduce, volume]
  exact popped.push sides (head.withVolume _) ((shrunk_sub exceeds).isValid valid)

/-- Where one loop stops, the other does not take a round. -/
theorem MirroredMatchings.not_round (h : MirroredMatchings K m m')
    (stop : m.incoming.volume = 0 ∨
      ∀ r ∈ m.opposite.orders.head?, priceCrosses m.incoming r = false)
    {r' : Order} {rest' : List Order} (first' : m'.opposite.orders = r' :: rest')
    (crosses' : priceCrosses m'.incoming r' = true) (left' : m'.incoming.volume ≠ 0) :
    False := by
  rcases stop with exhausted | apart
  · exact left' (h.incoming.volume.trans exhausted)
  · have opposite := h.opposite
    unfold MirroredQueues at opposite
    rw [first'] at opposite
    obtain ⟨r, rest, head, -, first⟩ := List.forall₂_cons_right_iff.mp opposite
    have stays := apart r (by simp [first])
    rw [← h.incoming.priceCrosses head, crosses'] at stays
    cases stays

/-- Corresponding loops leave corresponding states. -/
theorem Sweeps.mirror (sweep : Sweeps m ms m₁) (sides : t = s.opposite)
    (sweep' : Sweeps m' ms' m₁') (h : MirroredMatchings K m m')
    (valid : ∀ r ∈ m.opposite.orders, r.isValid = true) : MirroredMatchings K m₁ m₁' := by
  induction sweep generalizing m' ms' with
  | stop stop =>
      cases sweep' with
      | stop _ => exact h
      | consume first' crosses' left' _ _ => exact (h.not_round stop first' crosses' left').elim
      | reduce first' crosses' left' _ => exact (h.not_round stop first' crosses' left').elim
  | @consume m m₁ ms r rest first crosses left fits next ih =>
      cases sweep' with
      | stop stop => exact (h.symm.not_round stop first crosses left).elim
      | consume first' _ _ _ next' =>
          have tail := orders_consume first
          exact ih next' (h.consume first first')
            (fun x hx => valid x (by rw [tail] at hx; simp [first, hx]))
      | reduce first' _ _ exceeds' =>
          rw [h.incoming.volume, (h.heads first first').1.volume] at exceeds'
          exact absurd exceeds' (UInt32.not_lt.mpr fits)
  | @reduce m r rest first crosses left exceeds =>
      cases sweep' with
      | stop stop => exact (h.symm.not_round stop first crosses left).elim
      | consume first' _ _ fits' _ =>
          rw [h.incoming.volume, (h.heads first first').1.volume] at fits'
          exact absurd exceeds (UInt32.not_lt.mpr fits')
      | reduce first' _ _ _ =>
          exact h.reduce sides (valid r (by simp [first])) first first' exceeds

end Matchings

/-- What a submission that crosses answers and leaves, from the end of its match. -/
def settle (b : OrderBook) (o : Order) (m : Matching o.side.opposite) : ExecFlags × OrderBook :=
  if m.incoming.volume = 0 then
    (.fullyFilled ||| .accepted, b.setQueue o.side.opposite m.opposite)
  else
    (.partiallyFilled ||| .accepted,
      (b.setQueue o.side.opposite m.opposite).setQueue o.side
        ((b.queue o.side).push m.incoming).2)

variable {b b' : OrderBook} {o o' : Order}

theorem newOrder_crosses (allValid : b.AllValid) (valid : o.isValid = true)
    (crosses : b.canCross o = true) :
    ∃ m, Sweeps (b.matching o) (matchRounds (b.matching o)) m ∧
      b.newOrder o = .ok (b.settle o m) := by
  obtain ⟨flags, b', answer, sub⟩ := newOrder_submission allValid o
  rw [answer]
  cases sub with
  | refused invalid => simp [valid] at invalid
  | rests valid apart =>
      have stays := canCross_eq_false.mpr apart
      simp [stays] at crosses
  | filled valid crosses sweep exhausted =>
      exact ⟨_, sweep, by simp only [settle, exhausted, ite_true]⟩
  | partly valid crosses sweep left =>
      exact ⟨_, sweep, by simp only [settle, left, ite_false]⟩

@[simp] theorem orders_settle_opposite (b : OrderBook) (o : Order)
    (m : Matching o.side.opposite) :
    (b.settle o m).2.orders o.side.opposite = m.opposite.orders := by
  unfold settle
  split <;> simp [orders]

theorem orders_settle (b : OrderBook) (o : Order) (m : Matching o.side.opposite) :
    (b.settle o m).2.orders o.side =
      if m.incoming.volume = 0 then b.orders o.side
      else ((b.queue o.side).push m.incoming).2.orders := by
  unfold settle
  split <;> simp [orders]

theorem MirroredBooks.canCross (h : MirroredBooks K b b') (mirrored : Mirrored K o o') :
    b'.canCross o' = b.canCross o := by
  have contra := h o.side.opposite
  have same : b'.canCross o' = false ↔ b.canCross o = false := by
    rw [canCross_eq_false, canCross_eq_false, mirrored.side]
    generalize b.orders o.side.opposite = rs at contra ⊢
    generalize b'.orders o.side.opposite.opposite = rs' at contra ⊢
    cases contra with
    | nil => simp
    | cons head tail => simp [mirrored.priceCrosses head]
  cases crosses : b.canCross o with
  | true => simpa [crosses] using same
  | false => exact same.mpr crosses

theorem mirroredBooks_of_sides (s : Side)
    (own : List.Forall₂ (Mirrored K) (b.orders s) (b'.orders s.opposite))
    (contra : List.Forall₂ (Mirrored K) (b.orders s.opposite) (b'.orders s)) :
    MirroredBooks K b b' := by
  intro t
  rcases Side.eq_or_opposite t s with rfl | rfl
  · exact own
  · rw [Side.opposite_opposite]
    exact contra

theorem MirroredBooks.rest (h : MirroredBooks K b b') (mirrored : Mirrored K o o')
    (valid : o.isValid = true) : MirroredBooks K (b.rest o) (b'.rest o') := by
  have sides := mirrored.side
  apply mirroredBooks_of_sides o.side
  · rw [← sides, orders, orders, queue_rest, queue_rest]
    have own := h o.side
    rw [← sides] at own
    exact MirroredQueues.push sides own mirrored valid
  · have contra := h o.side.opposite
    have own : o.side = o'.side.opposite := by rw [sides, Side.opposite_opposite]
    rw [Side.opposite_opposite] at contra
    rw [orders, queue_rest_opposite]
    rw [own] at contra ⊢
    rw [orders, queue_rest_opposite]
    exact contra

theorem MirroredBooks.matching (h : MirroredBooks K b b') (mirrored : Mirrored K o o') :
    MirroredMatchings K (b.matching o) (b'.matching o') where
  incoming := mirrored
  opposite := by
    have contra := h o.side.opposite
    have side := mirrored.side
    change List.Forall₂ _ (b.orders o.side.opposite) (b'.orders o'.side.opposite)
    rw [side]
    exact contra

theorem MirroredBooks.settle (h : MirroredBooks K b b') (mirrored : Mirrored K o o')
    {m : Matching o.side.opposite} {m' : Matching o'.side.opposite}
    (ends : MirroredMatchings K m m')
    (residual : m.incoming.volume ≠ 0 → m.incoming.isValid = true) :
    (b'.settle o' m').1 = (b.settle o m).1 ∧
      MirroredBooks K (b.settle o m).2 (b'.settle o' m').2 := by
  have side := mirrored.side
  have volume := ends.incoming.volume
  refine ⟨?_, mirroredBooks_of_sides o.side ?_ ?_⟩
  · unfold OrderBook.settle
    rw [volume]
    split <;> rfl
  · have own := h o.side
    rw [← side] at own ⊢
    rw [orders_settle, orders_settle, volume]
    split
    · exact own
    · rename_i left
      exact MirroredQueues.push side own ends.incoming (residual left)
  · have contra : (b'.settle o' m').2.orders o.side = m'.opposite.orders := by
      have own : o.side = o'.side.opposite := by rw [side, Side.opposite_opposite]
      rw [congrArg (b'.settle o' m').2.orders own, orders_settle_opposite]
    rw [orders_settle_opposite, contra]
    exact ends.opposite

/-- Corresponding submissions to corresponding books are answered alike and leave
corresponding books. -/
theorem MirroredBooks.newOrder (h : MirroredBooks K b b') (mirrored : Mirrored K o o')
    (allValid : b.AllValid) (allValid' : b'.AllValid) :
    ∃ flags b₁ b₁', b.newOrder o = .ok (flags, b₁) ∧ b'.newOrder o' = .ok (flags, b₁') ∧
      MirroredBooks K b₁ b₁' := by
  cases valid : o.isValid with
  | false =>
      have valid' := mirrored.isValid.trans valid
      exact ⟨.rejected, b, b', by simp [OrderBook.newOrder, valid],
        by simp [OrderBook.newOrder, valid'], h⟩
  | true =>
      have valid' := mirrored.isValid.trans valid
      cases crosses : b.canCross o with
      | false =>
          have crosses' := (h.canCross mirrored).trans crosses
          exact ⟨.accepted, b.rest o, b'.rest o', newOrder_rests allValid valid crosses,
            newOrder_rests allValid' valid' crosses', h.rest mirrored valid⟩
      | true =>
          have crosses' := (h.canCross mirrored).trans crosses
          obtain ⟨m, sweep, answer⟩ := newOrder_crosses allValid valid crosses
          obtain ⟨m', sweep', answer'⟩ := newOrder_crosses allValid' valid' crosses'
          have ends := sweep.mirror (by rw [mirrored.side]) sweep' (h.matching mirrored)
            (allValid _)
          obtain ⟨flags, books⟩ := h.settle mirrored ends (sweep.residual_isValid valid)
          exact ⟨(b.settle o m).1, _, _, answer, by rw [answer', ← flags], books⟩

theorem MirroredBooks.submitAll {os os' : List Order} (h : MirroredBooks K b b')
    (mirrored : List.Forall₂ (Mirrored K) os os') (wf : b.WellFormed) (wf' : b'.WellFormed) :
    ∃ flags b₁ b₁', b.submitAll os = .ok (flags, b₁) ∧ b'.submitAll os' = .ok (flags, b₁') ∧
      MirroredBooks K b₁ b₁' := by
  induction mirrored generalizing b b' with
  | nil => exact ⟨[], b, b', rfl, rfl, h⟩
  | @cons o o' os os' head tail ih =>
      obtain ⟨flags, b₁, b₁', answer, answer', next⟩ := h.newOrder head wf.valid wf'.valid
      have wf₁ := (submission_of_newOrder wf.valid answer).wellFormed wf
      have wf₁' := (submission_of_newOrder wf'.valid answer').wellFormed wf'
      obtain ⟨later, b₂, b₂', run, run', ends⟩ := ih next wf₁ wf₁'
      exact ⟨flags :: later, b₂, b₂', by simp only [OrderBook.submitAll, answer, run],
        by simp only [OrderBook.submitAll, answer', run'], ends⟩

/-- Two runs of mirrored submissions from the empty book are answered alike, and each
queue of one is, order by order, the mirror image of the other queue of the other. -/
theorem mirrored_runs {os os' : List Order} (mirrored : List.Forall₂ (Mirrored K) os os') :
    ∃ flags b b', new.submitAll os = .ok (flags, b) ∧ new.submitAll os' = .ok (flags, b') ∧
      List.Forall₂ (Mirrored K) (b.orders .buy) (b'.orders .sell) ∧
      List.Forall₂ (Mirrored K) (b.orders .sell) (b'.orders .buy) := by
  have start : MirroredBooks K new new := by
    intro s
    simp
  obtain ⟨flags, b, b', run, run', books⟩ :=
    start.submitAll mirrored wellFormed_new wellFormed_new
  exact ⟨flags, b, b', run, run', books .buy, books .sell⟩

/-- A bid at 90 that takes part of an ask at 80, mirrored about 200. -/
theorem mirrored_runs_partial_fill :
    ∃ b b',
      new.submitAll [.plain .sell 1 1 80 9, .plain .buy 2 2 90 4] =
        .ok ([.accepted, .accepted ||| .fullyFilled], b) ∧
      new.submitAll [.plain .buy 1 1 120 9, .plain .sell 2 2 110 4] =
        .ok ([.accepted, .accepted ||| .fullyFilled], b') ∧
      b.orders .buy = [] ∧ b.orders .sell = [.plain .sell 1 1 80 5] ∧
      b'.orders .buy = [.plain .buy 1 1 120 5] ∧
      List.Forall₂ (Mirrored 200) (b.orders .buy) (b'.orders .sell) ∧
      List.Forall₂ (Mirrored 200) (b.orders .sell) (b'.orders .buy) := by
  have mirrored : List.Forall₂ (Mirrored 200) [.plain .sell 1 1 80 9, .plain .buy 2 2 90 4]
      [.plain .buy 1 1 120 9, .plain .sell 2 2 110 4] :=
    .cons ⟨by decide, by decide, by decide⟩ (.cons ⟨by decide, by decide, by decide⟩ .nil)
  obtain ⟨flags, b, b', run, run', queues⟩ := mirrored_runs mirrored
  have left : (new.submitAll [.plain .sell 1 1 80 9, .plain .buy 2 2 90 4]).map
      (fun r => (r.1, r.2.orders .buy, r.2.orders .sell)) =
        .ok ([.accepted, .accepted ||| .fullyFilled], [], [.plain .sell 1 1 80 5]) := by
    decide +kernel
  have left' : (new.submitAll [.plain .buy 1 1 120 9, .plain .sell 2 2 110 4]).map
      (fun r => r.2.orders .buy) = .ok [.plain .buy 1 1 120 5] := by decide +kernel
  rw [run] at left
  rw [run'] at left'
  simp only [Except.map, Except.ok.injEq, Prod.mk.injEq] at left left'
  obtain ⟨rfl, bids, asks⟩ := left
  exact ⟨b, b', run, run', bids, asks, left', queues⟩

end OrderBook

end FastLittleMarket
