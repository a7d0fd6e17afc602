import FastLittleMarket.Book.Index
import FastLittleMarket.Book.Volumes

/-!
Cancellation with ids that may be submitted again. The multiset of a side keeps
every order, the index one entry for each id; so a cancellation does what it says
as long as no order rests under an id that another one rests under, and no pop
erases the key of an order that stays.
-/

namespace FastLittleMarket

namespace PriorityQueueAdapter

variable {C : Comparator Order} {q : PriorityQueueAdapter C} {K : UInt64 → Prop}

/-- The index leads to every resting order whose id is in `K`. -/
def LiveOn (K : UInt64 → Prop) (q : PriorityQueueAdapter C) : Prop :=
  ∀ it o, q.priceSorted.deref it = some o → K o.idNs → q.idToIter o.idNs = some it

abbrev Live (q : PriorityQueueAdapter C) : Prop := q.LiveOn fun _ => True

theorem live_new : (new : PriorityQueueAdapter C).Live := by
  intro it o found
  cases OrderedBag.mem_values_of_deref found

theorem LiveOn.mono {K' : UInt64 → Prop} (h : q.LiveOn K) (sub : ∀ id, K' id → K id) :
    q.LiveOn K' :=
  fun it o found hK => h it o found (sub _ hK)

theorem LiveOn.idNs_ne_of_rest (h : q.LiveOn K) {r : Order} {rest : List Order}
    (first : q.orders = r :: rest) : ∀ x ∈ rest, K x.idNs → x.idNs ≠ r.idNs := by
  obtain ⟨it, live, popped⟩ := pop_eq first
  intro x hx hK same
  rw [← orders_pop first, popped] at hx
  obtain ⟨jt, hjt⟩ := OrderedBag.exists_deref_of_mem_values hx
  obtain ⟨mem, hne⟩ := OrderedBag.mem_nodes_erase.mp (OrderedBag.deref_eq_some.mp hjt)
  have entry := h jt x (OrderedBag.deref_eq_some.mpr mem) hK
  rw [same] at entry hK
  rw [h it r live hK] at entry
  exact hne (Option.some.inj entry).symm

theorem LiveOn.pop (h : q.LiveOn K) {r : Order} {rest : List Order}
    (first : q.orders = r :: rest) (spared : ∀ x ∈ rest, K x.idNs → x.idNs ≠ intKey r.idNs) :
    q.pop.2.LiveOn K := by
  have tail := orders_pop first
  obtain ⟨it, live, popped⟩ := pop_eq first
  intro jt x found hK
  have behind : x ∈ rest := tail ▸ OrderedBag.mem_values_of_deref found
  rw [popped] at found ⊢
  dsimp only
  rw [Function.update_of_ne (spared x behind hK)]
  exact h jt x (OrderedBag.deref_of_deref_erase found) hK

theorem LiveOn.push (h : q.LiveOn K) {o : Order} (valid : o.isValid = true)
    (fresh : ∀ x ∈ q.orders, K x.idNs → x.idNs ≠ o.idNs) : (q.push o).2.LiveOn K := by
  intro jt x found hK
  rw [idToIter_push q valid]
  rw [priceSorted_push q valid] at found
  by_cases hjt : jt = q.priceSorted.fresh
  · rw [hjt, OrderedBag.deref_insert_fresh] at found
    cases found
    rw [Function.update_self, hjt]
  · rw [OrderedBag.deref_insert_of_ne _ _ hjt] at found
    rw [Function.update_of_ne (fresh x (OrderedBag.mem_values_of_deref found) hK)]
    exact h jt x found hK

theorem LiveOn.remove (h : q.LiveOn K) {id : UInt64} {q' : PriorityQueueAdapter C}
    (gone : q.remove id = .ok (true, q')) : q'.LiveOn K := by
  obtain ⟨it, o, entry, live, rfl⟩ := remove_eq_true.mp gone
  intro jt x found hK
  dsimp only at found ⊢
  have kept := h jt x (OrderedBag.deref_of_deref_erase found) hK
  have other : x.idNs ≠ id := by
    intro same
    rw [same, entry] at kept
    cases kept
    rw [OrderedBag.deref_erase_self] at found
    cases found
  rw [Function.update_of_ne other]
  exact kept

theorem LiveOn.absent_of_find (h : q.Live) {id : UInt64} (found : q.find id = .ok none) :
    ∀ x ∈ q.orders, x.idNs ≠ id := by
  intro x hx same
  obtain ⟨it, live⟩ := OrderedBag.exists_deref_of_mem_values hx
  have entry := h it x live trivial
  rw [same, find_eq_none.mp found] at entry
  cases entry

/-- A removal from a queue whose index leads to every order takes out exactly the
orders with the id. -/
theorem LiveOn.orders_remove (h : q.Live) (linked : q.Linked) {id : UInt64}
    {q' : PriorityQueueAdapter C} (gone : q.remove id = .ok (true, q')) :
    q'.orders = q.orders.filter fun o => o.idNs ≠ id := by
  obtain ⟨it, o, entry, live, rfl⟩ := remove_eq_true.mp gone
  simp only [orders, OrderedBag.values, OrderedBag.erase, List.filter_map]
  refine congrArg (List.map Prod.snd) (List.filter_congr ?_)
  rintro ⟨jt, x⟩ hx
  have found : q.priceSorted.deref jt = some x := OrderedBag.deref_eq_some.mpr hx
  have same : jt = it ↔ x.idNs = id := by
    constructor
    · rintro rfl
      exact (linked id jt entry).2 x found
    · intro hid
      have mine := h jt x found trivial
      rw [hid, entry] at mine
      exact (Option.some.inj mine).symm
  simp [same]

/-- No index entry designates a node that is gone. -/
def Unstale (q : PriorityQueueAdapter C) : Prop :=
  ∀ id it, q.idToIter id = some it → ∃ o, q.priceSorted.deref it = some o

theorem unstale_new : (new : PriorityQueueAdapter C).Unstale := by
  intro id it entry
  cases entry

theorem Unstale.push (h : q.Unstale) {o : Order} (valid : o.isValid = true) :
    (q.push o).2.Unstale := by
  intro id it entry
  rw [idToIter_push q valid] at entry
  rw [priceSorted_push q valid]
  by_cases hid : id = o.idNs
  · rw [hid, Function.update_self] at entry
    cases entry
    exact ⟨o, OrderedBag.deref_insert_fresh _ _⟩
  · rw [Function.update_of_ne hid] at entry
    obtain ⟨x, live⟩ := h id it entry
    exact ⟨x, OrderedBag.deref_insert_of_deref o live⟩

theorem Unstale.erase (h : q.Unstale) (linked : q.Linked) {it : Nat} {o : Order}
    (live : q.priceSorted.deref it = some o) {id : UInt64} {jt : Nat}
    (entry : q.idToIter id = some jt) (other : id ≠ o.idNs) :
    ∃ x, (q.priceSorted.erase it).deref jt = some x := by
  obtain ⟨x, found⟩ := h id jt entry
  have apart : jt ≠ it := by
    rintro rfl
    exact other ((linked id jt entry).2 o live).symm
  exact ⟨x, by rw [OrderedBag.deref_erase_of_ne _ apart, found]⟩

theorem Unstale.pop (h : q.Unstale) (linked : q.Linked) {r : Order} {rest : List Order}
    (first : q.orders = r :: rest) (survives : intKey r.idNs = r.idNs) : q.pop.2.Unstale := by
  obtain ⟨it, live, popped⟩ := pop_eq first
  rw [popped, survives]
  intro id jt entry
  dsimp only at entry ⊢
  by_cases hid : id = r.idNs
  · rw [hid, Function.update_self] at entry
    cases entry
  · rw [Function.update_of_ne hid] at entry
    exact h.erase linked live entry hid

/-- The push after a pop files the new node under the id of the old one. -/
theorem Unstale.pop_push (h : q.Unstale) (linked : q.Linked) {r r' : Order}
    {rest : List Order} (first : q.orders = r :: rest) (same : r'.idNs = r.idNs)
    (valid : r'.isValid = true) : (q.pop.2.push r').2.Unstale := by
  obtain ⟨it, live, popped⟩ := pop_eq first
  intro id jt entry
  rw [idToIter_push _ valid, same] at entry
  rw [priceSorted_push _ valid]
  by_cases hid : id = r.idNs
  · rw [hid, Function.update_self] at entry
    cases entry
    exact ⟨r', OrderedBag.deref_insert_fresh _ _⟩
  · rw [Function.update_of_ne hid, popped] at entry
    dsimp only at entry
    have old : q.idToIter id = some jt := by
      by_cases hkey : id = intKey r.idNs
      · rw [hkey, Function.update_self] at entry
        cases entry
      · rwa [Function.update_of_ne hkey] at entry
    obtain ⟨x, found⟩ := h.erase linked live old hid
    rw [popped]
    exact ⟨x, OrderedBag.deref_insert_of_deref r' found⟩

theorem Unstale.remove (h : q.Unstale) (linked : q.Linked) {id : UInt64}
    {q' : PriorityQueueAdapter C} (gone : q.remove id = .ok (true, q')) : q'.Unstale := by
  obtain ⟨it, o, entry, live, rfl⟩ := remove_eq_true.mp gone
  have own := (linked id it entry).2 o live
  intro id' jt entry'
  dsimp only at entry' ⊢
  by_cases hid : id' = id
  · rw [hid, Function.update_self] at entry'
    cases entry'
  · rw [Function.update_of_ne hid] at entry'
    exact h.erase linked live entry' (own ▸ hid)

theorem Unstale.find (h : q.Unstale) (id : UInt64) : ∃ found, q.find id = .ok found := by
  cases hi : q.idToIter id with
  | none => exact ⟨none, find_eq_none.mpr hi⟩
  | some it =>
      obtain ⟨o, live⟩ := h id it hi
      exact ⟨some o, find_eq_some.mpr ⟨it, hi, live⟩⟩

end PriorityQueueAdapter

namespace OrderBook

variable {b b' : OrderBook} {s : Side}

/-- No order that a greedy match of `volume` leaves among `rs` has the id that an
order it reaches is cut to, unless that is this order's own id. -/
def KeysSpared (volume : Nat) (crosses : Order → Bool) (rs : List Order) : Prop :=
  ∀ p ∈ rs.zipIdx, 0 < greedyFill volume crosses rs p.2 p.1 →
    ∀ x ∈ contraAfter volume crosses rs, x.idNs = intKey p.1.idNs → intKey p.1.idNs = p.1.idNs

/-- An order that keeps volume behind a greedy match has an id that no order resting
then, of either side, has. -/
def FreshId (o : Order) (own contra : List Order) : Prop :=
  totalVolume (contra.takeWhile (priceCrosses o)) < o.volume.toNat →
    ∀ x ∈ own ++ contraAfter o.volume.toNat (priceCrosses o) contra, x.idNs ≠ o.idNs

/-- What the step submits, if valid, takes no id in use and costs no order its key. -/
def BookStep.KeepsIds (t : BookStep) : Prop :=
  ∀ o ∈ t.submitted, o.isValid = true →
    FreshId o t.own (t.before.orders o.side.opposite) ∧
      OrderBook.KeysSpared o.volume.toNat (priceCrosses o) (t.before.orders o.side.opposite)

section Sweeps

variable {m m' : Matching s} {ms : List (Matching s)}

theorem Sweeps.liveOn (h : Sweeps m ms m') (valid : ∀ r ∈ m.opposite.orders, r.isValid = true)
    {K : UInt64 → Prop} (live : m.opposite.LiveOn K)
    (spared : ∀ i r, m.opposite.orders[i]? = some r →
      0 < greedyFill m.incoming.volume.toNat (priceCrosses m.incoming) m.opposite.orders i r →
      K (intKey r.idNs) → intKey r.idNs = r.idNs) :
    m'.opposite.LiveOn K := by
  have behind : ∀ {m : Matching s} {r : Order} {rest : List Order}, m.opposite.LiveOn K →
      m.opposite.orders = r :: rest → (K (intKey r.idNs) → intKey r.idNs = r.idNs) →
      ∀ x ∈ rest, K x.idNs → x.idNs ≠ intKey r.idNs := by
    intro m r rest live first own x hx hK same
    rw [same] at hK
    exact live.idNs_ne_of_rest first x hx (same ▸ hK) (same.trans (own hK))
  induction h with
  | stop h => exact live
  | @consume m m' ms r rest first crosses left fits next ih =>
      have tail := orders_consume first
      have volume : (m.consume r).incoming.volume.toNat =
          m.incoming.volume.toNat - r.volume.toNat := UInt32.toNat_sub_of_le _ _ fits
      have reached : 0 < greedyFill m.incoming.volume.toNat (priceCrosses m.incoming)
          (r :: rest) 0 r := by
        rw [greedyFill_head crosses, Nat.min_eq_left (UInt32.le_iff_toNat_le.mp fits)]
        exact Order.volume_pos (valid r (by simp [first]))
      rw [first] at spared
      refine ih (fun x hx => valid x (by rw [tail] at hx; simp [first, hx]))
        (live.pop first (behind live first (spared 0 r rfl reached))) ?_
      intro i x hx filled
      rw [tail] at hx filled
      rw [volume] at filled
      refine spared (i + 1) x hx ?_
      rw [greedyFill_cons_succ rest crosses]
      exact filled
  | @reduce m r rest first crosses left exceeds =>
      have tail := PriorityQueueAdapter.orders_pop first
      have lt := UInt32.lt_iff_toNat_lt.mp exceeds
      have reached : 0 < greedyFill m.incoming.volume.toNat (priceCrosses m.incoming)
          (r :: rest) 0 r := by
        rw [greedyFill_head crosses, Nat.min_eq_right (Nat.le_of_lt lt)]
        exact toNat_pos left
      rw [first] at spared
      refine (live.pop first (behind live first (spared 0 r rfl reached))).push
        ((shrunk_sub exceeds).isValid (valid r (by simp [first]))) ?_
      intro x hx hK
      exact live.idNs_ne_of_rest first x (tail ▸ hx) hK

theorem Sweeps.live (h : Sweeps m ms m') (valid : ∀ r ∈ m.opposite.orders, r.isValid = true)
    (live : m.opposite.Live)
    (spared : KeysSpared m.incoming.volume.toNat (priceCrosses m.incoming)
      m.opposite.orders) : m'.opposite.Live := by
  have perm := (h.greedy valid).2
  have left := h.liveOn valid (K := fun id => ∃ x ∈ contraAfter m.incoming.volume.toNat
      (priceCrosses m.incoming) m.opposite.orders, x.idNs = id)
    (live.mono fun _ _ => trivial) (by
      rintro i r hr reached ⟨x, hx, same⟩
      exact spared (r, i) (List.mem_zipIdx_iff_getElem?.mpr hr) reached x hx same)
  intro it o found _
  exact left it o found ⟨o, perm.mem_iff.mp (OrderedBag.mem_values_of_deref found), rfl⟩

end Sweeps

/-- Both indexes lead to every resting order, and no id rests on both sides. -/
structure Cancellable (b : OrderBook) : Prop where
  live : ∀ s, (b.queue s).Live
  apart : ∀ s, ∀ x ∈ b.orders s, ∀ y ∈ b.orders s.opposite, x.idNs ≠ y.idNs

theorem cancellable_new : new.Cancellable where
  live s := by simpa using PriorityQueueAdapter.live_new
  apart := by simp

theorem cancellable_of_sides (s : Side) (own : (b.queue s).Live)
    (contra : (b.queue s.opposite).Live)
    (apart : ∀ x ∈ b.orders s, ∀ y ∈ b.orders s.opposite, x.idNs ≠ y.idNs) :
    b.Cancellable where
  live t := by
    rcases Side.eq_or_opposite t s with rfl | rfl
    · exact own
    · exact contra
  apart t x hx y hy := by
    rcases Side.eq_or_opposite t s with rfl | rfl
    · exact apart x hx y hy
    · rw [Side.opposite_opposite] at hy
      exact (apart y hy x hx).symm

theorem Cancellation.cancellable {id : UInt64} {flags : ExecFlags}
    (cancel : Cancellation b id flags b') (h : b.Cancellable) : b'.Cancellable := by
  cases cancel with
  | absent bids asks => exact h
  | @removed s o q found first gone =>
      have perm := orders_subset_of_find found gone
      refine cancellable_of_sides s ?_ ?_ ?_
      · simpa using (h.live s).remove gone
      · simpa using h.live s.opposite
      · intro x hx y hy
        simp only [orders, queue_subVolume, queue_setQueue, queue_opposite_setQueue] at hx hy
        exact h.apart s x (perm.mem_iff.mpr (List.mem_cons_of_mem _ hx)) y hy

theorem Submission.cancellable {o : Order} {flags : ExecFlags} (sub : Submission b o flags b')
    (wf : b.WellFormed) (h : b.Cancellable)
    (fresh : o.isValid = true → FreshId o (b.orders o.side) (b.orders o.side.opposite))
    (spared : o.isValid = true → KeysSpared o.volume.toNat (priceCrosses o)
      (b.orders o.side.opposite)) : b'.Cancellable := by
  cases sub with
  | refused invalid => exact h
  | rests valid apart =>
      have perm := PriorityQueueAdapter.orders_push_perm (b.queue o.side) valid
      have unused := fresh valid (by
        rw [takeWhile_of_apart apart]
        exact Order.volume_pos valid)
      rw [contraAfter_of_apart (volumes_ne_zero (wf.valid _)) apart] at unused
      refine cancellable_of_sides o.side ?_ ?_ ?_
      · simpa using (h.live o.side).push valid fun x hx _ =>
          unused x (List.mem_append_left _ hx)
      · simpa using h.live o.side.opposite
      · intro x hx y hy
        simp only [orders, queue_addVolume, queue_setQueue, queue_opposite_setQueue] at hx hy
        rcases List.mem_cons.mp (perm.mem_iff.mp hx) with rfl | hx
        · exact (unused y (List.mem_append_right _ hy)).symm
        · exact h.apart o.side x hx y hy
  | @filled valid m crosses sweep exhausted =>
      have contra := sweep.contra (wf.valid _)
      refine cancellable_of_sides o.side ?_ ?_ ?_
      · simpa using h.live o.side
      · simpa using sweep.live (wf.valid _) (h.live _) (spared valid)
      · intro x hx y hy
        simp only [orders, queue_setQueue_opposite, queue_setQueue] at hx hy
        obtain ⟨r, hr, v, -, -, rfl⟩ := contra y hy
        exact h.apart o.side x hx r hr
  | @partly valid m crosses sweep left =>
      have contra := sweep.contra (wf.valid _)
      have sameId : m.incoming.idNs = o.idNs := sweep.idNs_eq
      have residual := sweep.residual_isValid valid left
      obtain ⟨volume, after⟩ := sweep.greedy (wf.valid _)
      have keeps : totalVolume ((b.orders o.side.opposite).takeWhile (priceCrosses o)) <
          o.volume.toNat := by
        have pos := toNat_pos left
        rw [volume] at pos
        exact Nat.lt_of_sub_pos pos
      have unused := fresh valid keeps
      have perm := PriorityQueueAdapter.orders_push_perm (b.queue o.side) residual
      refine cancellable_of_sides o.side ?_ ?_ ?_
      · simpa using (h.live o.side).push residual fun x hx _ => by
          rw [sameId]
          exact unused x (List.mem_append_left _ hx)
      · simpa using sweep.live (wf.valid _) (h.live _) (spared valid)
      · intro x hx y hy
        simp only [orders, queue_opposite_setQueue, queue_setQueue] at hx hy
        rcases List.mem_cons.mp (perm.mem_iff.mp hx) with rfl | hx
        · rw [sameId]
          exact (unused y (List.mem_append_right _ (after.mem_iff.mp hy))).symm
        · obtain ⟨r, hr, v, -, -, rfl⟩ := contra y hy
          exact h.apart o.side x hx r hr

section Stale

theorem Sweeps.unstale {m m' : Matching s} {ms : List (Matching s)} (h : Sweeps m ms m')
    (valid : ∀ r ∈ m.opposite.orders, r.isValid = true) (linked : m.opposite.Linked)
    (unstale : m.opposite.Unstale)
    (keys : KeysSurvive m.incoming.volume.toNat (priceCrosses m.incoming) m.opposite.orders) :
    m'.opposite.Unstale := by
  induction h with
  | stop h => exact unstale
  | @consume m m' ms r rest first crosses left fits next ih =>
      have tail := orders_consume first
      have volume : (m.consume r).incoming.volume.toNat =
          m.incoming.volume.toNat - r.volume.toNat := UInt32.toNat_sub_of_le _ _ fits
      rw [first] at keys
      obtain ⟨survives, later⟩ := keys.consume crosses
        (volumes_ne_zero valid r (by simp [first])) (UInt32.le_iff_toNat_le.mp fits)
      refine ih (fun x hx => valid x (by rw [tail] at hx; simp [first, hx])) linked.pop
        (unstale.pop linked first survives) ?_
      rw [tail, volume]
      exact later
  | @reduce m r rest first crosses left exceeds =>
      exact unstale.pop_push linked first rfl
        ((shrunk_sub exceeds).isValid (valid r (by simp [first])))

theorem Submission.unstale {o : Order} {flags : ExecFlags} (sub : Submission b o flags b')
    (wf : b.WellFormed) (linked : ∀ s, (b.queue s).Linked) (h : ∀ s, (b.queue s).Unstale)
    (keys : o.isValid = true → KeysSurvive o.volume.toNat (priceCrosses o)
      (b.orders o.side.opposite)) (t : Side) : (b'.queue t).Unstale := by
  cases sub with
  | refused invalid => exact h t
  | rests valid apart =>
      rcases Side.eq_or_opposite t o.side with rfl | rfl
      · simpa using (h o.side).push valid
      · simpa using h o.side.opposite
  | @filled valid m crosses sweep exhausted =>
      rcases Side.eq_or_opposite t o.side with rfl | rfl
      · simpa using h o.side
      · simpa using sweep.unstale (wf.valid _) (linked _) (h _) (keys valid)
  | @partly valid m crosses sweep left =>
      rcases Side.eq_or_opposite t o.side with rfl | rfl
      · simpa using (h o.side).push (sweep.residual_isValid valid left)
      · simpa using sweep.unstale (wf.valid _) (linked _) (h _) (keys valid)

theorem Cancellation.unstale {id : UInt64} {flags : ExecFlags}
    (cancel : Cancellation b id flags b') (linked : ∀ s, (b.queue s).Linked)
    (h : ∀ s, (b.queue s).Unstale) (t : Side) : (b'.queue t).Unstale := by
  cases cancel with
  | absent bids asks => exact h t
  | @removed s o q found first gone =>
      rcases Side.eq_or_opposite t s with rfl | rfl
      · simpa using (h t).remove (linked t) gone
      · simpa using h s.opposite

theorem cancelOrder_returns (h : ∀ s, (b.queue s).Unstale) (id : UInt64) :
    ∃ answer, b.cancelOrder id = .ok answer := by
  obtain ⟨bid, hbid⟩ := (h .buy).find id
  obtain ⟨ask, hask⟩ := (h .sell).find id
  change b.buyOrders.find id = _ at hbid
  change b.sellOrders.find id = _ at hask
  cases bid with
  | some o =>
      obtain ⟨q, -, hcancel⟩ := cancelOn_of_find (b := b) (s := .buy) hbid
      simp only [cancelOrder, hbid, hcancel]
      exact ⟨_, rfl⟩
  | none =>
      cases ask with
      | some o =>
          obtain ⟨q, -, hcancel⟩ := cancelOn_of_find (b := b) (s := .sell) hask
          simp only [cancelOrder, hbid, hask, hcancel]
          exact ⟨_, rfl⟩
      | none =>
          simp only [cancelOrder, hbid, hask]
          exact ⟨_, rfl⟩

end Stale

/-- What `cancelOrder` promises for `id`: `CANCELLED` takes out the orders with this
id and no others, `REJECTED` means there was none. -/
def CancelContract (b : OrderBook) (id : UInt64) : Prop :=
  ∀ flags b', b.cancelOrder id = .ok (flags, b') →
    (flags = .cancelled → ∀ s, (∀ o ∈ b'.orders s, o.idNs ≠ id) ∧
      b'.orders s = (b.orders s).filter fun o => o.idNs ≠ id) ∧
    (flags = .rejected → (∀ s, ∀ o ∈ b.orders s, o.idNs ≠ id) ∧ b' = b)

theorem Cancellable.contract (h : b.Cancellable) (linked : ∀ s, (b.queue s).Linked)
    (id : UInt64) : b.CancelContract id := by
  intro flags b' answer
  cases cancellation_of_cancelOrder answer with
  | absent bids asks =>
      refine ⟨fun other => absurd other (by decide), fun _ => ⟨?_, rfl⟩⟩
      intro s
      cases s with
      | buy => exact (h.live .buy).absent_of_find bids
      | sell => exact (h.live .sell).absent_of_find asks
  | @removed s o q found first gone =>
      refine ⟨fun _ => ?_, fun other => absurd other (by decide)⟩
      have filtered : ∀ t, ((b.setQueue s q).subVolume o.priceQ4 s o.volume).orders t =
          (b.orders t).filter fun x => x.idNs ≠ id := by
        intro t
        rcases Side.eq_or_opposite t s with rfl | rfl
        · simpa [orders] using (h.live t).orders_remove (linked t) gone
        · have own : o.idNs = id := (linked s).idNs_of_find found
          have others : ∀ x ∈ b.orders s.opposite, x.idNs ≠ id := fun x hx same =>
            h.apart s o (PriorityQueueAdapter.mem_orders_of_find found) x hx (own.trans same.symm)
          have all_kept : (b.orders s.opposite).filter (fun x => x.idNs ≠ id) =
              b.orders s.opposite :=
            List.filter_eq_self.mpr fun x hx => decide_eq_true (others x hx)
          rw [all_kept]
          simp [orders]
      intro t
      refine ⟨?_, filtered t⟩
      rw [filtered t]
      intro x hx
      simpa using List.of_mem_filter hx

theorem Answered.cancellable {label : Request × ExecFlags} (answered : Answered b label b')
    (wf : b.WellFormed) (h : b.Cancellable) (keeps : BookStep.KeepsIds ⟨b, label, b'⟩) :
    b'.Cancellable := by
  cases answered with
  | submits sub =>
      exact sub.cancellable wf h (fun valid => (keeps _ rfl valid).1)
        (fun valid => (keeps _ rfl valid).2)
  | cancels cancel => exact cancel.cancellable h
  | misses found => exact h
  | @replaces id p v g u o q newFlags _ found gone sub =>
      have cancel := cancellation_withoutBid found gone
      have side := wf.replacement_side found p v g u
      have joined := keeps (replacement o p v g u).1 (by simp [BookStep.submitted, found])
      rw [side] at joined
      have same : ∀ x, x ∈ (b.orders .buy).erase o ↔ x ∈ q.orders :=
        fun x => (erase_of_gone found gone).mem_iff
      refine sub.cancellable (cancel.wellFormed wf) (cancel.cancellable h) ?_ ?_
      · intro valid keeps_volume x hx
        rw [side] at keeps_volume hx
        refine (joined valid).1 keeps_volume x ?_
        simp only [BookStep.own, found, List.mem_append] at hx ⊢
        exact hx.imp_left (same x).mpr
      · intro valid
        rw [side]
        exact (joined valid).2

theorem Answered.unstale {label : Request × ExecFlags} (answered : Answered b label b')
    (wf : b.WellFormed) (linked : ∀ s, (b.queue s).Linked) (h : ∀ s, (b.queue s).Unstale)
    (keys : BookStep.KeysSurvive ⟨b, label, b'⟩) (t : Side) : (b'.queue t).Unstale := by
  cases answered with
  | submits sub => exact sub.unstale wf linked h (keys _ rfl) t
  | cancels cancel => exact cancel.unstale linked h t
  | misses found => exact h t
  | @replaces id p v g u o q newFlags _ found gone sub =>
      have cancel := cancellation_withoutBid found gone
      have side := wf.replacement_side found p v g u
      have reached := keys (replacement o p v g u).1 (by simp [BookStep.submitted, found])
      refine sub.unstale (cancel.wellFormed wf) (queueInvariant_linked.cancellation cancel linked)
        (cancel.unstale linked h) ?_ t
      intro valid
      rw [side] at reached ⊢
      exact reached valid

/-- In a run that lets no two orders rest under one id and costs no resting order its
key, every cancellation that returns keeps its contract; and every one returns if
besides no order is filled whose key stays behind. -/
theorem cancel_contract {ts : List BookStep} (run : BookRun ts b)
    (keeps : ∀ t ∈ ts, t.KeepsIds) :
    (∀ id, b.CancelContract id) ∧
      ((∀ t ∈ ts, t.KeysSurvive) → ∀ id, ∃ answer, b.cancelOrder id = .ok answer) := by
  refine ⟨?_, ?_⟩
  · have h : b.Cancellable := run.invariant_of (G := BookStep.KeepsIds)
      (I := fun _ b => b.Cancellable) cancellable_new
      (fun _ _ _ _ before h answer keeps =>
        have wf := wellFormed_of_run before
        (wf.answered answer).cancellable wf h keeps) keeps
    exact h.contract (linked_of_run run)
  · intro keys
    have h : ∀ s, (b.queue s).Unstale := run.invariant_of (G := BookStep.KeysSurvive)
      (I := fun _ b => ∀ s, (b.queue s).Unstale)
      (fun s => by simpa using PriorityQueueAdapter.unstale_new)
      (fun _ _ _ _ before h answer keys =>
        have wf := wellFormed_of_run before
        (wf.answered answer).unstale wf (linked_of_run before) h keys) keys
    exact cancelOrder_returns h

theorem cancel_contract_two_bids :
    let b := (replay [.newOrder (.plain .buy 1 1 100 10), .newOrder (.plain .buy 2 2 100 5)]).2
    b.CancelContract (Order.pack 1 1) ∧ ∃ answer, b.cancelOrder (Order.pack 1 1) = .ok answer := by
  intro b
  have h := cancel_contract (replay_run [.newOrder (.plain .buy 1 1 100 10),
    .newOrder (.plain .buy 2 2 100 5)])
    (by unfold BookStep.KeepsIds FreshId OrderBook.KeysSpared; decide +kernel)
  refine ⟨h.1 _, h.2 ?_ _⟩
  have noAsks : ∀ t ∈ (replay [.newOrder (.plain .buy 1 1 100 10),
      .newOrder (.plain .buy 2 2 100 5)]).1, ∀ o ∈ t.submitted,
      t.before.orders o.side.opposite = [] := by decide +kernel
  intro t ht o ho _ i r hr
  rw [noAsks t ht o ho] at hr
  cases hr

/-- The same bid submitted twice: its cancellation says `CANCELLED`, and one rests on;
the next cancellation says `REJECTED`, and it still rests. -/
theorem cancel_leaves_duplicate :
    let bid : Order := .plain .buy 1 1 100 10
    let twice := replay [.newOrder bid, .newOrder bid]
    let once := replay [.newOrder bid, .newOrder bid, .cancelOrder (Order.pack 1 1)]
    BookRun twice.1 twice.2 ∧ BookRun once.1 once.2 ∧
      (twice.2.cancelOrder (Order.pack 1 1)).map (fun r => (r.1, r.2.orders .buy)) =
        .ok (.cancelled, [bid]) ∧
      ¬ twice.2.CancelContract (Order.pack 1 1) ∧
      once.2.orders .buy = [bid] ∧
      once.2.cancelOrder (Order.pack 1 1) = .ok (.rejected, once.2) ∧
      ¬ once.2.CancelContract (Order.pack 1 1) := by
  intro bid twice once
  have cancelled : (twice.2.cancelOrder (Order.pack 1 1)).map
      (fun r => (r.1, r.2.orders .buy)) = .ok (.cancelled, [bid]) := by decide +kernel
  have rests : once.2.orders .buy = [bid] := by decide +kernel
  have bids : once.2.buyOrders.find (Order.pack 1 1) = .ok none := by decide +kernel
  have asks : once.2.sellOrders.find (Order.pack 1 1) = .ok none := by decide +kernel
  have rejected : once.2.cancelOrder (Order.pack 1 1) = .ok (.rejected, once.2) := by
    simp only [cancelOrder, bids, asks]
  refine ⟨replay_run _, replay_run _, cancelled, ?_, rests, rejected, ?_⟩
  · intro h
    obtain ⟨r, hc, answer⟩ := Loop.exists_of_map cancelled
    obtain ⟨flags, left⟩ := Prod.mk.inj answer
    have gone := ((h r.1 r.2 hc).1 flags .buy).1
    rw [left] at gone
    exact gone bid (List.mem_singleton_self _) rfl
  · intro h
    have absent := ((h _ _ rejected).2 rfl).1 .buy
    rw [rests] at absent
    exact absent bid (List.mem_singleton_self _) rfl

end OrderBook

end FastLittleMarket
