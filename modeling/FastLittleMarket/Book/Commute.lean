import FastLittleMarket.Book.Index
import FastLittleMarket.Book.Resting

/-!
Orders of which none crosses another come to rest in any order of submission.

A book that only took such orders in is told by the set of them: the comparator is a
strict total order on each side's keys, the index leads to every id, and the volume
map adds up modulo 2^32.
-/

namespace FastLittleMarket.OrderBook

/-- Valid orders of different ids and keys, every bid below every ask. -/
structure Independent (os : List Order) : Prop where
  valid : ∀ o ∈ os, o.isValid = true
  apart : ∀ x ∈ os, ∀ y ∈ os, x.side = .buy → y.side = .sell → x.priceQ4 < y.priceQ4
  ids : (os.map Order.idNs).Nodup
  keys : ∀ x ∈ os, ∀ y ∈ os, x.side = y.side → x.priceQ4 = y.priceQ4 →
    x.timestamp = y.timestamp → x = y

variable {os os' done : List Order} {b b' : OrderBook} {o : Order}

theorem Independent.perm (h : Independent os) (perm : os.Perm os') : Independent os' where
  valid o ho := h.valid o (perm.mem_iff.mpr ho)
  apart x hx y hy := h.apart x (perm.mem_iff.mpr hx) y (perm.mem_iff.mpr hy)
  ids := (perm.map Order.idNs).nodup_iff.mp h.ids
  keys x hx y hy := h.keys x (perm.mem_iff.mpr hx) y (perm.mem_iff.mpr hy)

theorem Independent.sublist (h : Independent os) (sub : os'.Sublist os) : Independent os' where
  valid o ho := h.valid o (sub.subset ho)
  apart x hx y hy := h.apart x (sub.subset hx) y (sub.subset hy)
  ids := h.ids.sublist (sub.map Order.idNs)
  keys x hx y hy := h.keys x (sub.subset hx) y (sub.subset hy)

theorem Independent.eq_of_id (h : Independent os) {x y : Order} (hx : x ∈ os) (hy : y ∈ os)
    (same : x.idNs = y.idNs) : x = y :=
  List.inj_on_of_nodup_map h.ids hx hy same

theorem Independent.priceCrosses (h : Independent os) {x y : Order} (hx : x ∈ os) (hy : y ∈ os)
    (sides : y.side = x.side.opposite) : priceCrosses x y = false := by
  rw [priceCrosses_eq_false]
  cases side : x.side with
  | buy => exact h.apart x hx y hy side (by rw [sides, side]; rfl)
  | sell => exact h.apart y hy x hx (by rw [sides, side]; rfl) side

/-- Neither of two ordered neighbours comes before the other only if they are one. -/
theorem Independent.eq_of_tied (h : Independent os) {s : Side} {x y : Order} (hx : x ∈ os)
    (hy : y ∈ os) (sides : x.side = y.side) (notLater : (comparator s).lt y x = false)
    (notEarlier : (comparator s).lt x y = false) : x = y := by
  obtain ⟨price, stamp⟩ := (lt_eq_false_iff_tied notLater).mp notEarlier
  exact h.keys x hx y hy sides price stamp

/-- The book holds the orders `done`, each on its side, under its id. -/
structure Rested (done : List Order) (b : OrderBook) : Prop where
  holds : ∀ s, (b.orders s).Perm (done.filter fun o => o.side = s)
  index : ∀ s, (b.queue s).ExactIndex

theorem rested_new : Rested [] new where
  holds := by simp
  index s := by simpa using PriorityQueueAdapter.exactIndex_new

theorem Rested.mem_iff (h : Rested done b) {s : Side} :
    o ∈ b.orders s ↔ o ∈ done ∧ o.side = s := by
  rw [(h.holds s).mem_iff, List.mem_filter, decide_eq_true_eq]

theorem Rested.cons (h : Rested done b) (indep : Independent (o :: done)) :
    Rested (o :: done) (b.rest o) := by
  have valid := indep.valid o List.mem_cons_self
  have unused : ∀ x ∈ (b.queue o.side).orders, x.idNs ≠ o.idNs := by
    intro x hx same
    have fresh := (List.nodup_cons.mp indep.ids).1
    exact fresh (same ▸ List.mem_map_of_mem (h.mem_iff.mp hx).1)
  refine ⟨fun s => ?_, fun s => ?_⟩
  · rcases Side.eq_or_opposite s o.side with rfl | rfl
    · rw [orders, queue_rest, List.filter_cons_of_pos (by simp)]
      exact ((b.queue o.side).orders_push_perm valid).trans ((h.holds o.side).cons o)
    · rw [orders, queue_rest_opposite,
        List.filter_cons_of_neg (by simpa using (Side.opposite_ne o.side).symm)]
      exact h.holds o.side.opposite
  · rcases Side.eq_or_opposite s o.side with rfl | rfl
    · rw [queue_rest]
      exact (h.index o.side).push valid unused
    · rw [queue_rest_opposite]
      exact h.index o.side.opposite

theorem Rested.newOrder (h : Rested done b) (indep : Independent (o :: done)) :
    b.newOrder o = .ok (.accepted, b.rest o) := by
  apply newOrder_rests
  · intro s x hx
    exact indep.valid x (List.mem_cons_of_mem _ (h.mem_iff.mp hx).1)
  · exact indep.valid o List.mem_cons_self
  · apply canCross_eq_false.mpr
    intro r hr
    have resting := h.mem_iff.mp (List.mem_of_mem_head? hr)
    exact indep.priceCrosses List.mem_cons_self (List.mem_cons_of_mem _ resting.1) resting.2

/-- Independent orders are all accepted, one after the other. -/
theorem Rested.submitAll (h : Rested done b) (indep : Independent (os ++ done)) :
    b.submitAll os = .ok (os.map fun _ => .accepted, os.foldl rest b) ∧
      Rested (os.reverse ++ done) (os.foldl rest b) := by
  induction os generalizing b done with
  | nil => exact ⟨rfl, h⟩
  | cons o os ih =>
      have moved : Independent (os ++ o :: done) := indep.perm List.perm_middle.symm
      have first := moved.sublist (List.sublist_append_right os (o :: done))
      obtain ⟨later, rested⟩ := ih (h.cons first) moved
      refine ⟨?_, by simpa using rested⟩
      simp only [OrderBook.submitAll, h.newOrder first, later, List.map_cons, List.foldl_cons]

theorem Rested.getOrder_of_mem (h : Rested done b) (indep : Independent done) (ho : o ∈ done) :
    b.getOrder o.idNs = .ok (some o) := by
  have found := (h.index o.side).find_of_mem (h.mem_iff.mpr ⟨ho, rfl⟩)
  cases side : o.side with
  | buy =>
      rw [side] at found
      have bid : b.buyOrders.find o.idNs = .ok (some o) := found
      simp only [getOrder, bid]
  | sell =>
      rw [side] at found
      have ask : b.sellOrders.find o.idNs = .ok (some o) := found
      have bid : b.buyOrders.find o.idNs = .ok none := by
        apply (h.index .buy).find_of_absent
        intro x hx same
        have resting := h.mem_iff.mp hx
        have twin := indep.eq_of_id resting.1 ho same
        rw [twin, side] at resting
        cases resting.2
      simp only [getOrder, bid, ask]

theorem Rested.getOrder_of_absent (h : Rested done b) {id : UInt64}
    (absent : ∀ o ∈ done, o.idNs ≠ id) : b.getOrder id = .ok none := by
  have missing : ∀ s, (b.queue s).find id = .ok none := fun s =>
    (h.index s).find_of_absent fun x hx => absent x (h.mem_iff.mp hx).1
  have bid : b.buyOrders.find id = .ok none := missing .buy
  have ask : b.sellOrders.find id = .ok none := missing .sell
  simp only [getOrder, bid, ask]

/-- Two books that hold the same independent orders show the same. -/
theorem Rested.same (h : Rested os b) (h' : Rested os' b') (perm : os.Perm os')
    (indep : Independent os) :
    (∀ s, b.orders s = b'.orders s) ∧ ∀ id, b.getOrder id = b'.getOrder id := by
  refine ⟨fun s => ?_, fun id => ?_⟩
  · refine List.Perm.eq_of_pairwise ?_ (b.queue s).priceSorted.values_sorted
      (b'.queue s).priceSorted.values_sorted
      ((h.holds s).trans ((perm.filter _).trans (h'.holds s).symm))
    intro x y hx hy notLater notEarlier
    have left := h.mem_iff.mp hx
    have right := h'.mem_iff.mp hy
    exact indep.eq_of_tied left.1 (perm.mem_iff.mpr right.1) (left.2.trans right.2.symm)
      notLater notEarlier
  · by_cases held : ∃ o ∈ os, o.idNs = id
    · obtain ⟨o, ho, rfl⟩ := held
      rw [h.getOrder_of_mem indep ho,
        h'.getOrder_of_mem (indep.perm perm) (perm.mem_iff.mp ho)]
    · have absent : ∀ o ∈ os, o.idNs ≠ id := fun o ho same => held ⟨o, ho, same⟩
      rw [h.getOrder_of_absent absent,
        h'.getOrder_of_absent fun o ho => absent o (perm.mem_iff.mpr ho)]

/-- What the order adds to the volume map when it comes to rest. -/
def withVolume (volumes : UInt32 × Side → Option Int32) (o : Order) :
    UInt32 × Side → Option Int32 :=
  Function.update volumes (o.priceQ4, o.side)
    (some (((volumes (o.priceQ4, o.side)).getD 0).toUInt32 + o.volume).toInt32)

theorem volumes_rest (b : OrderBook) (o : Order) :
    (b.rest o).volumes = withVolume b.volumes o := by
  have kept : (b.setQueue o.side ((b.queue o.side).push o).2).volumes = b.volumes := by
    cases o.side <;> rfl
  simp only [rest, addVolume, withVolume, kept]

theorem volumes_foldl (os : List Order) (b : OrderBook) :
    (os.foldl rest b).volumes = os.foldl withVolume b.volumes := by
  induction os generalizing b with
  | nil => rfl
  | cons o os ih => rw [List.foldl_cons, List.foldl_cons, ih, volumes_rest]

instance : RightCommutative withVolume where
  right_comm volumes x y := by
    by_cases same : (x.priceQ4, x.side) = (y.priceQ4, y.side)
    · simp only [withVolume, same, Function.update_self, Function.update_idem,
        Option.getD_some, UInt32.toUInt32_toInt32, UInt32.add_assoc,
        UInt32.add_comm x.volume]
    · simp only [withVolume, Function.update_of_ne same,
        Function.update_of_ne (Ne.symm same)]
      rw [Function.update_comm same]

/-- Independent orders are accepted in whatever order they are submitted, and the book
they leave does not tell which it was. -/
theorem independent_orders_commute (indep : Independent os) (perm : os.Perm os') :
    ∃ b b', new.submitAll os = .ok (os.map fun _ => .accepted, b) ∧
      new.submitAll os' = .ok (os'.map fun _ => .accepted, b') ∧
      (∀ s, b.orders s = b'.orders s) ∧
      (∀ id, b.getOrder id = b'.getOrder id) ∧
      ∀ key, b.volumes key = b'.volumes key := by
  obtain ⟨run, rested⟩ := rested_new.submitAll (by simpa using indep)
  obtain ⟨run', rested'⟩ := rested_new.submitAll (by simpa using indep.perm perm)
  have held : (os.reverse ++ []).Perm os := by simp
  have held' : (os'.reverse ++ []).Perm os' := by simp
  obtain ⟨orders, found⟩ := rested.same rested' (held.trans (perm.trans held'.symm))
    (indep.perm held.symm)
  refine ⟨_, _, run, run', orders, found, fun key => ?_⟩
  rw [volumes_foldl, volumes_foldl, perm.foldl_eq]

/-- Two bids of one price and an ask, forwards and backwards. -/
theorem independent_orders_commute_three :
    let os : List Order :=
      [.plain .buy 1 1 100 5, .plain .buy 2 2 100 6, .plain .sell 3 3 101 7]
    ∃ b b', new.submitAll os = .ok ([.accepted, .accepted, .accepted], b) ∧
      new.submitAll os.reverse = .ok ([.accepted, .accepted, .accepted], b') ∧
      b.orders .buy = [.plain .buy 2 2 100 6, .plain .buy 1 1 100 5] ∧
      b.orders .sell = [.plain .sell 3 3 101 7] ∧
      (∀ s, b.orders s = b'.orders s) ∧ (∀ id, b.getOrder id = b'.getOrder id) ∧
      ∀ key, b.volumes key = b'.volumes key := by
  intro os
  have indep : Independent os :=
    ⟨by decide, by decide, by decide, by decide⟩
  obtain ⟨b, b', run, run', same⟩ := independent_orders_commute indep os.reverse_perm.symm
  have left : (new.submitAll os).map (fun r => (r.2.orders .buy, r.2.orders .sell)) =
      .ok ([.plain .buy 2 2 100 6, .plain .buy 1 1 100 5], [.plain .sell 3 3 101 7]) := by
    decide +kernel
  rw [run] at left
  simp only [Except.map, Except.ok.injEq, Prod.mk.injEq] at left
  exact ⟨b, b', run, run', left.1, left.2, same⟩

end FastLittleMarket.OrderBook
