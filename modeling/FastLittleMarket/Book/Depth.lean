import FastLittleMarket.Library.Curve
import FastLittleMarket.Book.Priority

/-!
The depth of the book: on each side, the volume that rests at a price or better.

Submissions act on the depth alone. A market of two curves, without ids, clients or
timestamps, gives the same answers as the book and keeps the book's depth, whatever
order the queues keep among orders of one price.
-/

namespace FastLittleMarket

/-- How far a price lies from the best one a resting order of the side can have. -/
def rank : Side → UInt32 → ℕ
  | .sell, p => p.toNat
  | .buy, p => 4294967295 - p.toNat

theorem betterPrice_iff_rank {s : Side} {p q : UInt32} :
    betterPrice s p q ↔ rank s p < rank s q := by
  have hp := p.toNat_lt
  have hq := q.toNat_lt
  cases s with
  | buy =>
      simp only [betterPrice, rank, UInt32.lt_iff_toNat_lt]
      omega
  | sell => simp only [betterPrice, rank, UInt32.lt_iff_toNat_lt]

theorem rank_injective {s : Side} {p q : UInt32} (h : rank s p = rank s q) : p = q := by
  have hp := p.toNat_lt
  have hq := q.toNat_lt
  apply UInt32.toNat_inj.mp
  cases s with
  | buy =>
      simp only [rank] at h
      omega
  | sell => exact h

theorem priceCrosses_iff_rank {s : Side} {o r : Order} (contra : o.side.opposite = s) :
    OrderBook.priceCrosses o r = true ↔ rank s r.priceQ4 ≤ rank s o.priceQ4 := by
  subst contra
  have ho := o.priceQ4.toNat_lt
  have hr := r.priceQ4.toNat_lt
  unfold OrderBook.priceCrosses
  cases o.side with
  | buy => simp only [Side.opposite, rank, decide_eq_true_eq, UInt32.le_iff_toNat_le]
  | sell =>
      simp only [Side.opposite, rank, decide_eq_true_eq, ge_iff_le, UInt32.le_iff_toNat_le]
      omega

/-- The volume of the orders at each rank or better. -/
def depthOf (s : Side) (rs : List Order) : Curve ℕ :=
  .ofList (fun r => rank s r.priceQ4) (fun r => r.volume.toNat) rs

theorem depthOf_cons (s : Side) (r : Order) (rs : List Order) :
    depthOf s (r :: rs) = (depthOf s rs).put (rank s r.priceQ4) r.volume.toNat := rfl

/-- A market of which only the depth is known. -/
abbrev Depth := Side → Curve ℕ

namespace Depth

def empty : Depth := fun _ => .empty

/-- `volume` more that rests on side `s` at a price. -/
def rest (d : Depth) (s : Side) (priceQ4 : UInt32) (volume : ℕ) : Depth :=
  Function.update d s ((d s).put (rank s priceQ4) volume)

def within (d : Depth) (s : Side) (priceQ4 : UInt32) : ℕ := d s.opposite (rank s.opposite priceQ4)

/-- `volume` enters on side `s`: what is within the limit trades, the rest stays. -/
def enter (d : Depth) (s : Side) (priceQ4 : UInt32) (volume : ℕ) : Depth :=
  let taken := (d s.opposite).take (rank s.opposite priceQ4) volume
  rest (Function.update d s.opposite taken) s priceQ4 (volume - d.within s priceQ4)

def submit (d : Depth) (o : Order) : ExecFlags × Depth :=
  if !o.isValid then (.rejected, d)
  else
    let volume := o.volume.toNat
    (OrderBook.greedyFlags volume (min volume (d.within o.side o.priceQ4)),
      d.enter o.side o.priceQ4 volume)

def submitAll (d : Depth) : List Order → List ExecFlags × Depth
  | [] => ([], d)
  | o :: os =>
      let (flags, d) := d.submit o
      let (later, d) := submitAll d os
      (flags :: later, d)

end Depth

namespace OrderBook

def depth (b : OrderBook) : Depth := fun s => depthOf s (b.orders s)

variable {s : Side} {b b' : OrderBook}

theorem behind_of_first {q : PriorityQueueAdapter (comparator s)} {r : Order}
    {rest : List Order} (first : q.orders = r :: rest) :
    ∀ x ∈ rest, rank s r.priceQ4 ≤ rank s x.priceQ4 := by
  intro x hx
  have notBefore := not_betterPrice_of_lt_eq_false (not_lt_of_first first x hx)
  rw [betterPrice_iff_rank] at notBefore
  exact Nat.le_of_not_lt notBefore

theorem depthOf_front {q : PriorityQueueAdapter (comparator s)} {r : Order} {rest : List Order}
    (first : q.orders = r :: rest) : ∀ p < rank s r.priceQ4, depthOf s rest p = 0 := by
  intro p hp
  apply Curve.ofList_eq_zero
  intro x hx
  exact Nat.lt_of_lt_of_le hp (behind_of_first first x hx)

/-- Nothing is within the limit when the first contra order is not. -/
theorem depthOf_eq_zero_of_apart {q : PriorityQueueAdapter (comparator s)} {o : Order}
    (contra : o.side.opposite = s) (apart : ∀ r ∈ q.orders.head?, priceCrosses o r = false) :
    depthOf s q.orders (rank s o.priceQ4) = 0 := by
  apply Curve.ofList_eq_zero
  cases h : q.orders with
  | nil => exact fun _ hx => absurd hx List.not_mem_nil
  | cons r rest =>
      rw [List.forall_mem_cons]
      have first : rank s o.priceQ4 < rank s r.priceQ4 := by
        apply Nat.lt_of_not_le
        rw [← priceCrosses_iff_rank contra, apart r (by simp [h])]
        exact Bool.false_ne_true
      exact ⟨first, fun x hx => Nat.lt_of_lt_of_le first (behind_of_first h x hx)⟩

/-- A sweep takes the incoming volume from the front of the contra depth, up to the limit. -/
theorem Sweeps.depth {m m' : Matching s} {ms : List (Matching s)} (h : Sweeps m ms m')
    (contra : m.incoming.side.opposite = s)
    (valid : ∀ r ∈ m.opposite.orders, r.isValid = true) :
    depthOf s m'.opposite.orders =
        (depthOf s m.opposite.orders).take (rank s m.incoming.priceQ4)
          m.incoming.volume.toNat ∧
      m'.incoming.volume.toNat = m.incoming.volume.toNat -
        depthOf s m.opposite.orders (rank s m.incoming.priceQ4) := by
  induction h with
  | @stop m h =>
      rcases h with none | apart
      · rw [none, UInt32.toNat_zero, Curve.take_nothing]
        exact ⟨rfl, (Nat.zero_sub _).symm⟩
      · have zero := depthOf_eq_zero_of_apart contra apart
        rw [Curve.take_of_none zero, zero]
        exact ⟨rfl, rfl⟩
  | @consume m m' ms r rest first crosses left fits next ih =>
      have tail := orders_consume first
      have volume : (m.consume r).incoming.volume.toNat =
          m.incoming.volume.toNat - r.volume.toNat := UInt32.toNat_sub_of_le _ _ fits
      have price : (m.consume r).incoming.priceQ4 = m.incoming.priceQ4 := rfl
      obtain ⟨taken, remains⟩ := ih contra fun x hx => valid x (by
        rw [tail] at hx
        simp [first, hx])
      rw [tail, volume, price] at taken remains
      have inside := (priceCrosses_iff_rank contra).mp crosses
      have le := UInt32.le_iff_toNat_le.mp fits
      rw [first, depthOf_cons, Curve.take_put_of_le (depthOf_front first) inside le]
      refine ⟨taken, ?_⟩
      rw [remains, Curve.put_apply, if_pos inside]
      omega
  | @reduce m r rest first crosses left exceeds =>
      have inside := (priceCrosses_iff_rank contra).mp crosses
      have lt := UInt32.lt_iff_toNat_lt.mp exceeds
      have perm := orders_reduce_perm (valid r (by simp [first])) first exceeds
      have left : depthOf s (m.reduce r).opposite.orders =
          (depthOf s rest).put (rank s r.priceQ4) (r.volume.toNat - m.incoming.volume.toNat) := by
        rw [← UInt32.toNat_sub_of_le _ _ (UInt32.le_of_lt exceeds)]
        exact Curve.ofList_perm perm
      rw [left, first, depthOf_cons, Curve.take_put_of_lt (depthOf_front first) inside lt]
      refine ⟨rfl, ?_⟩
      rw [Curve.put_apply, if_pos inside]
      change UInt32.toNat 0 = _
      rw [UInt32.toNat_zero]
      omega

theorem depth_setQueue (b : OrderBook) (s : Side) (q : PriorityQueueAdapter (comparator s)) :
    (b.setQueue s q).depth = Function.update b.depth s (depthOf s q.orders) := by
  funext t
  unfold OrderBook.depth orders
  rcases Side.eq_or_opposite t s with rfl | rfl
  · rw [queue_setQueue, Function.update_self]
  · rw [Function.update_of_ne (Side.opposite_ne s), queue_opposite_setQueue]

theorem depth_addVolume (b : OrderBook) (p v : UInt32) (s : Side) :
    (b.addVolume p s v).depth = b.depth := by
  funext t
  unfold OrderBook.depth orders
  rw [queue_addVolume]

theorem depth_push (q : PriorityQueueAdapter (comparator s)) {o : Order}
    (valid : o.isValid = true) :
    depthOf s (q.push o).2.orders = (depthOf s q.orders).put (rank s o.priceQ4) o.volume.toNat :=
  Curve.ofList_perm (PriorityQueueAdapter.orders_push_perm q valid)

theorem within_of_apart {o : Order}
    (apart : ∀ r ∈ (b.orders o.side.opposite).head?, priceCrosses o r = false) :
    b.depth.within o.side o.priceQ4 = 0 :=
  depthOf_eq_zero_of_apart rfl apart

theorem within_pos {o : Order} (wf : b.WellFormed) (crosses : b.canCross o = true) :
    0 < b.depth.within o.side o.priceQ4 := by
  apply (Curve.ofList_pos_iff fun r hr => Order.volume_pos (wf.valid _ r hr)).mpr
  by_contra beyond
  push Not at beyond
  have apart : b.canCross o = false := canCross_eq_false.mpr fun r hr => by
    have first := beyond r (List.mem_of_mem_head? hr)
    rw [← Bool.not_eq_true, priceCrosses_iff_rank rfl]
    exact Nat.not_le_of_lt first
  rw [apart] at crosses
  cases crosses

theorem Submission.depth {o : Order} {flags : ExecFlags} (sub : Submission b o flags b')
    (wf : b.WellFormed) : b.depth.submit o = (flags, b'.depth) := by
  cases sub with
  | refused invalid => simp [Depth.submit, invalid]
  | rests valid apart =>
      have zero := within_of_apart apart
      have whole : (b.depth o.side.opposite).take (rank o.side.opposite o.priceQ4)
          o.volume.toNat = b.depth o.side.opposite := Curve.take_of_none zero _
      simp only [Depth.submit, Depth.enter, valid, zero, whole, Nat.min_zero, Nat.sub_zero,
        Function.update_eq_self, Bool.not_true, Bool.false_eq_true, ite_false]
      rw [depth_addVolume, depth_setQueue, depth_push _ valid]
      rfl
  | @filled valid m crosses sweep exhausted =>
      obtain ⟨taken, remains⟩ := sweep.depth rfl (wf.valid _)
      change depthOf _ m.opposite.orders = (b.depth o.side.opposite).take _ o.volume.toNat at taken
      change m.incoming.volume.toNat =
        o.volume.toNat - b.depth.within o.side o.priceQ4 at remains
      rw [exhausted, UInt32.toNat_zero] at remains
      have pos := Order.volume_pos valid
      have all : min o.volume.toNat (b.depth.within o.side o.priceQ4) = o.volume.toNat := by omega
      have nonzero : o.volume.toNat ≠ 0 := by omega
      simp only [Depth.submit, Depth.enter, valid, all, ← remains, Depth.rest, Curve.put_zero,
        Function.update_eq_self, Bool.not_true, Bool.false_eq_true, ite_false]
      rw [depth_setQueue, taken, greedyFlags, if_neg nonzero, if_pos rfl]
      rfl
  | @partly valid m crosses sweep left =>
      obtain ⟨taken, remains⟩ := sweep.depth rfl (wf.valid _)
      change depthOf _ m.opposite.orders = (b.depth o.side.opposite).take _ o.volume.toNat at taken
      change m.incoming.volume.toNat =
        o.volume.toNat - b.depth.within o.side o.priceQ4 at remains
      have pos := toNat_pos left
      have found := within_pos wf crosses
      have all : min o.volume.toNat (b.depth.within o.side o.priceQ4) =
          b.depth.within o.side o.priceQ4 := by omega
      have price : m.incoming.priceQ4 = o.priceQ4 := by
        rw [sweep.incoming_eq]
        rfl
      have some_traded : b.depth.within o.side o.priceQ4 ≠ 0 := by omega
      have some_left : b.depth.within o.side o.priceQ4 ≠ o.volume.toNat := by omega
      have flags : ExecFlags.accepted ||| .partiallyFilled = .partiallyFilled ||| .accepted := by
        decide
      simp only [Depth.submit, Depth.enter, valid, all, Bool.not_true, Bool.false_eq_true,
        ite_false]
      rw [depth_setQueue, depth_push _ (sweep.residual_isValid valid left), depth_setQueue, taken,
        remains, price, greedyFlags, if_neg some_traded, if_neg some_left, flags, Depth.rest,
        Function.update_of_ne (Side.opposite_ne o.side).symm]
      rfl

theorem depth_removed {id : UInt64} {q : PriorityQueueAdapter (comparator s)} {o : Order}
    (found : (b.queue s).find id = .ok (some o)) (gone : (b.queue s).remove id = .ok (true, q)) :
    b.depth = ((b.setQueue s q).subVolume o.priceQ4 s o.volume).depth.rest s o.priceQ4
      o.volume.toNat := by
  have perm := orders_subset_of_find found gone
  have left : ((b.setQueue s q).subVolume o.priceQ4 s o.volume).depth =
      Function.update b.depth s (depthOf s q.orders) := depth_setQueue b s q
  rw [left, Depth.rest, Function.update_self, Function.update_idem, Function.eq_update_iff]
  exact ⟨Curve.ofList_perm perm, fun _ _ => rfl⟩

theorem Cancellation.depth {id : UInt64} {flags : ExecFlags}
    (cancel : Cancellation b id flags b') (wf : b.WellFormed) :
    (flags = .rejected ∧ b'.depth = b.depth) ∨
      ∃ s p v, 0 < v ∧ flags = .cancelled ∧ b.depth = b'.depth.rest s p v := by
  cases cancel with
  | absent bids asks => exact .inl ⟨rfl, rfl⟩
  | @removed s o q found first gone =>
      have valid := wf.valid s o (PriorityQueueAdapter.mem_orders_of_find found)
      exact .inr ⟨s, o.priceQ4, o.volume.toNat, Order.volume_pos valid, rfl,
        depth_removed found gone⟩

end OrderBook

namespace Depth

/-- What the requests of the book do to a market of which only the depth is known. Which
volume a cancellation finds, the depth does not say. -/
inductive Step : Depth → Request × ExecFlags → Depth → Prop
  | submits (d : Depth) (o : Order) : Step d (.newOrder o, (d.submit o).1) (d.submit o).2
  | cancels (d : Depth) (s : Side) (p : UInt32) (v : ℕ) (id : UInt64) (some_volume : 0 < v) :
      Step (d.rest s p v) (.cancelOrder id, .cancelled) d
  | misses (d : Depth) (id : UInt64) : Step d (.cancelOrder id, .rejected) d
  | replaces (d : Depth) (p : UInt32) (v : ℕ) (id : UInt64) (g : GlobalSequencer)
      (u : UnsetFlags) (o : Order) (bid : o.side = .buy) (some_volume : 0 < v) :
      Step (d.rest .buy p v) (.modifyOrder id o.priceQ4 o.volume g u,
        .cancelled ||| (d.submit o).1) (d.submit o).2
  | overlooks (d : Depth) (id : UInt64) (p v : UInt32) (g : GlobalSequencer) (u : UnsetFlags) :
      Step d (.modifyOrder id p v g u, .rejected) d

end Depth

namespace OrderBook

variable {s : Side} {b b' : OrderBook}

theorem Answered.depth {label : Request × ExecFlags} (answered : Answered b label b')
    (wf : b.WellFormed) : Depth.Step b.depth label b'.depth := by
  cases answered with
  | @submits o flags b' sub =>
      have step := Depth.Step.submits b.depth o
      rwa [sub.depth wf] at step
  | @cancels id flags b' cancel =>
      rcases cancel.depth wf with ⟨rfl, same⟩ | ⟨s, p, v, pos, rfl, gone⟩
      · rw [same]
        exact .misses _ id
      · rw [gone]
        exact .cancels _ s p v id pos
  | @misses id p v g u found => exact .overlooks _ id p v g u
  | @replaces id p v g u o q newFlags b' found gone sub =>
      have cancel := cancellation_withoutBid found gone
      have valid := (wf.mem_of_find found).2.2
      have left : b.depth = (b.withoutBid q o).depth.rest .buy o.priceQ4 o.volume.toNat :=
        depth_removed found gone
      have step := Depth.Step.replaces (b.withoutBid q o).depth o.priceQ4 o.volume.toNat id g u
        (replacement o p v g u).1 (wf.replacement_side found p v g u) (Order.volume_pos valid)
      rw [sub.depth (cancel.wellFormed wf), replacement_fields] at step
      rw [left]
      exact step

theorem depth_new : new.depth = .empty := by
  funext s
  unfold OrderBook.depth
  rw [orders_new]
  rfl

/-- Every run of the book is a run of the market of its depth, with the same answers. -/
theorem run_refines_depth {ts : List BookStep} {b : OrderBook} (run : BookRun ts b) :
    Run Depth.Step .empty (ts.map fun t => ⟨t.before.depth, t.label, t.after.depth⟩) b.depth := by
  rw [← depth_new]
  refine run.map OrderBook.depth (fun _ label => label) ?_
  intro ts b label b' before answer
  have wf := wellFormed_of_run before
  exact (wf.answered answer).depth wf

theorem run_refines_depth_modified_bid :
    let run := replay [.newOrder (.plain .buy 0 1 100 10), .newOrder (.plain .sell 0 2 99 4),
      .modifyOrder 1 98 5 ⟨0, 7⟩ ⟨0, 0⟩, .cancelOrder 7]
    (run.1.map fun t => t.label.2) = [.accepted, .fullyFilled ||| .accepted,
        .cancelled ||| .accepted, .cancelled] ∧
      Run Depth.Step .empty (run.1.map fun t => ⟨t.before.depth, t.label, t.after.depth⟩)
        run.2.depth := by
  intro run
  exact ⟨by decide +kernel, run_refines_depth (replay_run _)⟩

theorem submitAll_depth (os : List Order) {b : OrderBook} (wf : b.WellFormed) :
    ∃ b', b.submitAll os = .ok ((b.depth.submitAll os).1, b') ∧ b'.WellFormed ∧
      b'.depth = (b.depth.submitAll os).2 := by
  induction os generalizing b with
  | nil => exact ⟨b, rfl, wf, rfl⟩
  | cons o os ih =>
      obtain ⟨flags, b₁, answer, sub⟩ := newOrder_submission wf.valid o
      obtain ⟨b₂, later, wf₂, depth⟩ := ih (sub.wellFormed wf)
      refine ⟨b₂, ?_, wf₂, ?_⟩
      · simp only [submitAll, Depth.submitAll, answer, sub.depth wf, later]
      · simp only [Depth.submitAll, sub.depth wf, depth]

/-- Equal depths have equally good best prices. -/
theorem best_of_depth {r : Order} {rest : List Order} (wf : b.WellFormed)
    (wf' : b'.WellFormed) (same : b.depth = b'.depth) (first : b.orders s = r :: rest) :
    ∃ r' rest', b'.orders s = r' :: rest' ∧ rank s r'.priceQ4 ≤ rank s r.priceQ4 := by
  have some_volume : 0 < b.depth s (rank s r.priceQ4) :=
    (Curve.ofList_pos_iff fun x hx => Order.volume_pos (wf.valid s x hx)).mpr
      ⟨r, by simp [first], Nat.le_refl _⟩
  rw [same] at some_volume
  obtain ⟨x, hx, near⟩ :=
    (Curve.ofList_pos_iff fun x hx => Order.volume_pos (wf'.valid s x hx)).mp some_volume
  cases first' : b'.orders s with
  | nil =>
      rw [first'] at hx
      cases hx
  | cons r' rest' =>
      refine ⟨r', rest', rfl, ?_⟩
      rw [first', List.mem_cons] at hx
      rcases hx with rfl | hx
      · exact near
      · exact Nat.le_trans (behind_of_first first' x hx) near

theorem top_of_depth (wf : b.WellFormed) (wf' : b'.WellFormed) (same : b.depth = b'.depth)
    (s : Side) : (b.queue s).top.map Order.priceQ4 = (b'.queue s).top.map Order.priceQ4 := by
  rw [PriorityQueueAdapter.top_eq_head?, PriorityQueueAdapter.top_eq_head?]
  change (b.orders s).head?.map _ = (b'.orders s).head?.map _
  cases first : b.orders s with
  | nil =>
      cases first' : b'.orders s with
      | nil => rfl
      | cons r' rest' =>
          obtain ⟨r, rest, more, -⟩ := best_of_depth wf' wf same.symm first'
          rw [first] at more
          cases more
  | cons r rest =>
      obtain ⟨r', rest', first', le⟩ := best_of_depth wf wf' same first
      obtain ⟨x, xs, again, le'⟩ := best_of_depth wf' wf same.symm first'
      rw [first] at again
      cases again
      rw [first', List.head?_cons, List.head?_cons, Option.map_some, Option.map_some,
        rank_injective (Nat.le_antisymm le' le)]

/-- Books of equal depth answer any orders alike, whatever rests in them and in which
order, and keep equal depths and equal best prices. -/
theorem equal_depths_answer_alike {ts ts' : List BookStep} (run : BookRun ts b)
    (run' : BookRun ts' b') (same : b.depth = b'.depth) (os : List Order) :
    ∃ flags c c', b.submitAll os = .ok (flags, c) ∧ b'.submitAll os = .ok (flags, c') ∧
      c.depth = c'.depth ∧
      ∀ s, (c.queue s).top.map Order.priceQ4 = (c'.queue s).top.map Order.priceQ4 := by
  obtain ⟨c, answer, wf, depth⟩ := submitAll_depth os (wellFormed_of_run run)
  obtain ⟨c', answer', wf', depth'⟩ := submitAll_depth os (wellFormed_of_run run')
  rw [← same] at answer' depth'
  have equal := depth.trans depth'.symm
  exact ⟨_, c, c', answer, answer', equal, top_of_depth wf wf' equal⟩

theorem equal_depths_answer_alike_split_ask :
    let b := (replay [.newOrder (.plain .sell 1 1 100 10)]).2
    let b' := (replay [.newOrder (.plain .sell 2 1 100 4), .newOrder (.plain .sell 3 2 100 6)]).2
    ∃ flags c c', b.submitAll [.plain .buy 4 3 101 7] = .ok (flags, c) ∧
      b'.submitAll [.plain .buy 4 3 101 7] = .ok (flags, c') ∧ c.depth = c'.depth ∧
      ∀ s, (c.queue s).top.map Order.priceQ4 = (c'.queue s).top.map Order.priceQ4 := by
  intro b b'
  refine equal_depths_answer_alike (replay_run _) (replay_run _) ?_ _
  have asks : b.orders .sell = [.plain .sell 1 1 100 10] := by decide +kernel
  have asks' : b'.orders .sell = [.plain .sell 3 2 100 6, .plain .sell 2 1 100 4] := by
    decide +kernel
  have bids : b.orders .buy = [] := by decide +kernel
  have bids' : b'.orders .buy = [] := by decide +kernel
  funext s
  cases s with
  | sell =>
      change depthOf .sell (b.orders .sell) = depthOf .sell (b'.orders .sell)
      rw [asks, asks', depthOf_cons, depthOf_cons, depthOf_cons]
      exact (Curve.put_put _ _ 4 6).symm
  | buy =>
      change depthOf .buy (b.orders .buy) = depthOf .buy (b'.orders .buy)
      rw [bids, bids']

end OrderBook

namespace Depth

variable (d : Depth) (s : Side) (p : UInt32) (m n : ℕ)

theorem enter_own : d.enter s p n s = (d s).put (rank s p) (n - d.within s p) := by
  simp [enter, rest, Function.update_of_ne (Side.opposite_ne s).symm]

theorem enter_opposite :
    d.enter s p n s.opposite = (d s.opposite).take (rank s.opposite p) n := by
  simp [enter, rest, Function.update_of_ne (Side.opposite_ne s)]

theorem enter_zero : d.enter s p 0 = d := by
  funext t
  rcases Side.eq_or_opposite t s with rfl | rfl
  · rw [enter_own, Nat.zero_sub, Curve.put_zero]
  · rw [enter_opposite, Curve.take_nothing]

theorem within_enter : (d.enter s p m).within s p = d.within s p - m := by
  unfold within
  rw [enter_opposite, Curve.take_limit]

theorem enter_enter : (d.enter s p m).enter s p n = d.enter s p (m + n) := by
  funext t
  rcases Side.eq_or_opposite t s with rfl | rfl
  · have parts : m - d.within t p + (n - (d.within t p - m)) = m + n - d.within t p := by omega
    rw [enter_own, enter_own, enter_own, within_enter, Curve.put_put, parts]
  · rw [enter_opposite, enter_opposite, enter_opposite, Curve.take_take]

end Depth

/-- The orders are `o` cut into parts, of whatever ids and clients. -/
structure Slices (o : Order) (os : List Order) : Prop where
  alike : ∀ x ∈ os, x.isValid = true ∧ x.side = o.side ∧ x.priceQ4 = o.priceQ4
  total : totalVolume os = o.volume.toNat

namespace OrderBook

theorem depth_slices {s : Side} {p : UInt32} {os : List Order}
    (alike : ∀ x ∈ os, x.isValid = true ∧ x.side = s ∧ x.priceQ4 = p) (d : Depth) :
    (d.submitAll os).2 = d.enter s p (totalVolume os) := by
  induction os generalizing d with
  | nil => exact (d.enter_zero s p).symm
  | cons x os ih =>
      rw [List.forall_mem_cons] at alike
      obtain ⟨⟨valid, rfl, rfl⟩, later⟩ := alike
      rw [totalVolume_cons, ← Depth.enter_enter, ← ih later]
      simp [Depth.submitAll, Depth.submit, valid]

/-- An order leaves the same depth whole and in slices, and the same best prices. -/
theorem slices_leave_depth {ts : List BookStep} {b : OrderBook} (run : BookRun ts b) {o : Order}
    (valid : o.isValid = true) {os : List Order} (slices : Slices o os) :
    ∃ flags c all c', b.newOrder o = .ok (flags, c) ∧ b.submitAll os = .ok (all, c') ∧
      c.depth = c'.depth ∧
      ∀ s, (c.queue s).top.map Order.priceQ4 = (c'.queue s).top.map Order.priceQ4 := by
  have wf := wellFormed_of_run run
  obtain ⟨flags, c, answer, sub⟩ := newOrder_submission wf.valid o
  obtain ⟨c', answers, wf', depth⟩ := submitAll_depth os wf
  have whole := sub.depth wf
  simp only [Depth.submit, valid, Bool.not_true, Bool.false_eq_true, ite_false,
    Prod.mk.injEq] at whole
  have equal : c.depth = c'.depth := by
    rw [depth, depth_slices slices.alike, slices.total, whole.2]
  exact ⟨flags, c, _, c', answer, answers, equal, top_of_depth (sub.wellFormed wf) wf' equal⟩

theorem slices_leave_depth_two_asks :
    let b := (replay [.newOrder (.plain .sell 1 1 100 5), .newOrder (.plain .sell 2 2 101 4)]).2
    ∃ flags c all c', b.newOrder (.plain .buy 3 3 101 12) = .ok (flags, c) ∧
      b.submitAll [.plain .buy 4 4 101 3, .plain .buy 5 5 101 9] = .ok (all, c') ∧
      c.depth = c'.depth ∧
      ∀ s, (c.queue s).top.map Order.priceQ4 = (c'.queue s).top.map Order.priceQ4 :=
  slices_leave_depth (replay_run _) (by decide) ⟨by decide, by decide⟩

end OrderBook

end FastLittleMarket
