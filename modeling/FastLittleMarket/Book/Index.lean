import FastLittleMarket.Book.Conservation

/-!
The id index of a queue. `pop` erases the key of the popped order only when that
key survives a signed 32-bit local; a run with distinct ids keeps every index
exact as long as each key it pops survives, or belongs to an order that is pushed
back and hides no other key.
-/

namespace FastLittleMarket

namespace PriorityQueueAdapter

variable {C : Comparator Order} {q : PriorityQueueAdapter C}

/-- The keys are the ids of the resting orders, and each designates the node of
the order with that id. -/
def ExactIndex (q : PriorityQueueAdapter C) : Prop :=
  ∀ id it, q.idToIter id = some it ↔ ∃ o, q.priceSorted.deref it = some o ∧ o.idNs = id

theorem exactIndex_new : (new : PriorityQueueAdapter C).ExactIndex := by
  intro id it
  simp [new, OrderedBag.deref_eq_some]

theorem ExactIndex.find_of_mem (h : q.ExactIndex) {o : Order} (ho : o ∈ q.orders) :
    q.find o.idNs = .ok (some o) := by
  obtain ⟨it, hit⟩ := OrderedBag.exists_deref_of_mem_values ho
  exact find_eq_some.mpr ⟨it, (h _ _).mpr ⟨o, hit, rfl⟩, hit⟩

theorem ExactIndex.find_of_absent (h : q.ExactIndex) {id : UInt64}
    (absent : ∀ o ∈ q.orders, o.idNs ≠ id) : q.find id = .ok none := by
  rw [find_eq_none]
  cases hi : q.idToIter id with
  | none => rfl
  | some it =>
      obtain ⟨o, ho, hid⟩ := (h id it).mp hi
      exact absurd hid (absent o (OrderedBag.mem_values_of_deref ho))

theorem ExactIndex.handle_eq (h : q.ExactIndex) {i j : Nat} {o o' : Order}
    (hi : q.priceSorted.deref i = some o) (hj : q.priceSorted.deref j = some o')
    (same : o.idNs = o'.idNs) : i = j := by
  have first := (h o.idNs i).mpr ⟨o, hi, rfl⟩
  rw [(h o.idNs j).mpr ⟨o', hj, same.symm⟩] at first
  exact (Option.some.inj first).symm

theorem exactIndex_insert {q : PriorityQueueAdapter C} {o : Order}
    (others : ∀ id it, id ≠ o.idNs →
      (q.idToIter id = some it ↔ ∃ r, q.priceSorted.deref it = some r ∧ r.idNs = id))
    (absent : ∀ r ∈ q.orders, r.idNs ≠ o.idNs) (valid : o.isValid = true) :
    (q.push o).2.ExactIndex := by
  intro id it
  rw [idToIter_push q valid, priceSorted_push q valid]
  by_cases hid : id = o.idNs
  · subst hid
    rw [Function.update_self]
    constructor
    · intro hit
      rw [← Option.some.inj hit]
      exact ⟨o, OrderedBag.deref_insert_fresh _ _, rfl⟩
    · rintro ⟨r, hr, hrid⟩
      by_cases hit : it = q.priceSorted.fresh
      · rw [hit]
      · rw [OrderedBag.deref_insert_of_ne _ _ hit] at hr
        exact absurd hrid (absent r (OrderedBag.mem_values_of_deref hr))
  · rw [Function.update_of_ne hid, others id it hid]
    constructor
    · rintro ⟨r, hr, hrid⟩
      exact ⟨r, OrderedBag.deref_insert_of_deref o hr, hrid⟩
    · rintro ⟨r, hr, hrid⟩
      by_cases hit : it = q.priceSorted.fresh
      · rw [hit, OrderedBag.deref_insert_fresh] at hr
        exact absurd ((Option.some.inj hr) ▸ hrid.symm) hid
      · exact ⟨r, by rwa [OrderedBag.deref_insert_of_ne _ _ hit] at hr, hrid⟩

theorem ExactIndex.push (h : q.ExactIndex) {o : Order} (valid : o.isValid = true)
    (fresh : ∀ r ∈ q.orders, r.idNs ≠ o.idNs) : (q.push o).2.ExactIndex :=
  exactIndex_insert (fun id it _ => h id it) fresh valid

theorem ExactIndex.erase (h : q.ExactIndex) {it : Nat} {o : Order}
    (live : q.priceSorted.deref it = some o) :
    ExactIndex (C := C) ⟨q.priceSorted.erase it, Function.update q.idToIter o.idNs none⟩ := by
  intro id jt
  dsimp only
  by_cases hid : id = o.idNs
  · subst hid
    rw [Function.update_self]
    constructor
    · intro hnone
      cases hnone
    · rintro ⟨r, hr, hrid⟩
      have kept := OrderedBag.mem_nodes_erase.mp (OrderedBag.deref_eq_some.mp hr)
      have hr := OrderedBag.deref_eq_some.mpr kept.1
      exact absurd (h.handle_eq hr live hrid) kept.2
  · rw [Function.update_of_ne hid, h id jt]
    by_cases hjt : jt = it
    · subst hjt
      rw [live, OrderedBag.deref_erase_self]
      constructor
      · rintro ⟨r, hr, hrid⟩
        exact absurd ((Option.some.inj hr) ▸ hrid.symm) hid
      · rintro ⟨r, hr, -⟩
        cases hr
    · rw [OrderedBag.deref_erase_of_ne _ hjt]

theorem ExactIndex.remove (h : q.ExactIndex) {id : UInt64} {o : Order}
    {q' : PriorityQueueAdapter C} (found : q.find id = .ok (some o))
    (gone : q.remove id = .ok (true, q')) : q'.ExactIndex := by
  obtain ⟨it, hi, live⟩ := find_eq_some.mp found
  obtain ⟨o', live', hid⟩ := (h id it).mp hi
  rw [live] at live'
  cases live'
  subst hid
  simp only [PriorityQueueAdapter.remove, hi, live, Except.ok.injEq, Prod.mk.injEq,
    true_and] at gone
  rw [← gone]
  exact h.erase live

/-- A pop erases the node of the first order and the key its id is cut to. -/
theorem pop_eq {r : Order} {rest : List Order} (first : q.orders = r :: rest) :
    ∃ it, q.priceSorted.deref it = some r ∧
      q.pop.2 = ⟨q.priceSorted.erase it, Function.update q.idToIter (intKey r.idNs) none⟩ := by
  cases hb : q.priceSorted.begin? with
  | none =>
      have none_rest := OrderedBag.begin?_eq_none.mp hb
      simp [orders, none_rest] at first
  | some n =>
      have split := OrderedBag.values_erase_begin hb
      change q.orders = _ at split
      rw [first] at split
      have head : r = n.2 := (List.cons.inj split).1
      refine ⟨n.1, head ▸ OrderedBag.begin?_deref hb, ?_⟩
      simp only [PriorityQueueAdapter.pop, hb, head]

theorem ExactIndex.idNs_ne_of_rest (h : q.ExactIndex) {r : Order} {rest : List Order}
    (first : q.orders = r :: rest) : ∀ x ∈ rest, x.idNs ≠ r.idNs := by
  obtain ⟨it, live, popped⟩ := pop_eq first
  intro x hx same
  rw [← orders_pop first, popped] at hx
  obtain ⟨jt, hjt⟩ := OrderedBag.exists_deref_of_mem_values hx
  obtain ⟨mem, hne⟩ := OrderedBag.mem_nodes_erase.mp (OrderedBag.deref_eq_some.mp hjt)
  exact hne (h.handle_eq (OrderedBag.deref_eq_some.mpr mem) live same)

/-- A pop keeps the index exact when the popped id survives the `int`. -/
theorem ExactIndex.pop (h : q.ExactIndex) {r : Order} {rest : List Order}
    (first : q.orders = r :: rest) (survives : intKey r.idNs = r.idNs) :
    q.pop.2.ExactIndex := by
  obtain ⟨it, live, popped⟩ := pop_eq first
  rw [popped, survives]
  exact h.erase live

/-- A pop followed by a push of an order with the same id keeps the index exact
when the key erased in between is that of no order behind. -/
theorem ExactIndex.pop_push (h : q.ExactIndex) {r r' : Order} {rest : List Order}
    (first : q.orders = r :: rest) (same : r'.idNs = r.idNs) (valid : r'.isValid = true)
    (behind : ∀ x ∈ rest, x.idNs ≠ intKey r.idNs) : (q.pop.2.push r').2.ExactIndex := by
  have tail := orders_pop first
  obtain ⟨it, live, popped⟩ := pop_eq first
  refine exactIndex_insert ?_ ?_ valid
  · intro id jt hid
    rw [same] at hid
    have exact_rest := h.erase live id jt
    dsimp only at exact_rest
    rw [Function.update_of_ne hid] at exact_rest
    rw [popped, ← exact_rest]
    dsimp only
    by_cases hkey : id = intKey r.idNs
    · have absent : q.idToIter id ≠ some jt := by
        intro hit
        obtain ⟨x, hx, hxid⟩ := exact_rest.mp hit
        have mem : x ∈ q.pop.2.orders := by
          rw [popped]
          exact OrderedBag.mem_values_of_deref hx
        exact behind x (tail ▸ mem) (hxid.trans hkey)
      simp only [hkey, Function.update_self, reduceCtorEq, false_iff]
      rwa [← hkey]
    · rw [Function.update_of_ne hkey]
  · rw [tail, same]
    exact h.idNs_ne_of_rest first

end PriorityQueueAdapter

namespace OrderBook

/-- The order a step hands to `newOrder`: its own, or the replacement of a bid. -/
def BookStep.submitted (t : BookStep) : Option Order :=
  match t.label.1 with
  | .newOrder o => some o
  | .cancelOrder _ => none
  | .modifyOrder id newPriceQ4 newVolume sequencer unset =>
      match t.before.buyOrders.find id with
      | .ok (some o) => some (replacement o newPriceQ4 newVolume sequencer unset).1
      | _ => none

def submittedIds (ts : List BookStep) : List UInt64 :=
  (ts.filterMap BookStep.submitted).map Order.idNs

/-- Of the contra orders `rs` that an incoming `volume` reaches, each one filled
completely keeps its id through the `int`, and one that keeps a rest is cut to no
key of an order behind it. -/
def KeysSurvive (volume : Nat) (crosses : Order → Bool) (rs : List Order) : Prop :=
  ∀ i r, rs[i]? = some r → 0 < greedyFill volume crosses rs i r →
    if r.volume.toNat ≤ greedyFill volume crosses rs i r then intKey r.idNs = r.idNs
    else ∀ x ∈ rs.drop (i + 1), x.idNs ≠ intKey r.idNs

def BookStep.KeysSurvive (t : BookStep) : Prop :=
  ∀ o ∈ t.submitted, o.isValid = true →
    OrderBook.KeysSurvive o.volume.toNat (priceCrosses o) (t.before.orders o.side.opposite)

section Sweeps

variable {volume : Nat} {crosses : Order → Bool} {r : Order} {rest : List Order}

theorem greedyFill_head (cross : crosses r = true) :
    greedyFill volume crosses (r :: rest) 0 r = min r.volume.toNat volume := by
  simp [greedyFill, cross]

theorem KeysSurvive.consume (h : KeysSurvive volume crosses (r :: rest))
    (cross : crosses r = true) (positive : r.volume ≠ 0) (fits : r.volume.toNat ≤ volume) :
    intKey r.idNs = r.idNs ∧ KeysSurvive (volume - r.volume.toNat) crosses rest := by
  have pos := toNat_pos positive
  refine ⟨?_, ?_⟩
  · have head := h 0 r rfl
    rw [greedyFill_head cross, Nat.min_eq_left fits, if_pos (Nat.le_refl _)] at head
    exact head pos
  · intro i x hx reached
    have later := h (i + 1) x hx
    rw [greedyFill_cons_succ rest cross] at later
    exact later reached

theorem KeysSurvive.reduce (h : KeysSurvive volume crosses (r :: rest))
    (cross : crosses r = true) (left : 0 < volume) (exceeds : volume < r.volume.toNat) :
    ∀ x ∈ rest, x.idNs ≠ intKey r.idNs := by
  have head := h 0 r rfl
  rw [greedyFill_head cross, Nat.min_eq_right (Nat.le_of_lt exceeds),
    if_neg (Nat.not_le_of_lt exceeds)] at head
  simpa using head left

theorem Sweeps.exactIndex {s : Side} {m m' : Matching s} {ms : List (Matching s)}
    (h : Sweeps m ms m') (valid : ∀ r ∈ m.opposite.orders, r.isValid = true)
    (exact : m.opposite.ExactIndex)
    (keys : KeysSurvive m.incoming.volume.toNat (priceCrosses m.incoming) m.opposite.orders) :
    m'.opposite.ExactIndex := by
  induction h with
  | stop h => exact exact
  | @consume m m' ms r rest first crosses left fits next ih =>
      have tail := orders_consume first
      have volume : (m.consume r).incoming.volume.toNat =
          m.incoming.volume.toNat - r.volume.toNat := UInt32.toNat_sub_of_le _ _ fits
      rw [first] at keys
      obtain ⟨survives, later⟩ := keys.consume crosses
        (volumes_ne_zero valid r (by simp [first])) (UInt32.le_iff_toNat_le.mp fits)
      refine ih (fun x hx => valid x (by rw [tail] at hx; simp [first, hx]))
        (exact.pop first survives) ?_
      rw [tail, volume]
      exact later
  | @reduce m r rest first crosses left exceeds =>
      have positive := toNat_pos left
      rw [first] at keys
      exact exact.pop_push first rfl ((shrunk_sub exceeds).isValid (valid r (by simp [first])))
        (keys.reduce crosses positive (UInt32.lt_iff_toNat_lt.mp exceeds))

theorem keysSurvive_of_intKey {rs : List Order} (keep : ∀ r ∈ rs, intKey r.idNs = r.idNs)
    (distinct : (rs.map Order.idNs).Nodup) : KeysSurvive volume crosses rs := by
  intro i r hr _
  have survives := keep r (List.mem_of_getElem? hr)
  split
  · exact survives
  · rw [survives]
    obtain ⟨hi, rfl⟩ := List.getElem?_eq_some_iff.mp hr
    have split : rs.drop i = rs[i] :: rs.drop (i + 1) := List.drop_eq_getElem_cons hi
    have behind := (distinct.sublist ((List.drop_sublist i rs).map _))
    rw [split, List.map_cons, List.nodup_cons] at behind
    exact fun x hx same => behind.1 (List.mem_map.mpr ⟨x, hx, same⟩)

end Sweeps

/-- Both indexes are exact, every resting id is one of `ids`, and no id rests on
both sides. -/
structure Indexed (ids : List UInt64) (b : OrderBook) : Prop where
  exact : ∀ s, (b.queue s).ExactIndex
  known : ∀ s, ∀ o ∈ b.orders s, o.idNs ∈ ids
  apart : ∀ s, ∀ x ∈ b.orders s, ∀ y ∈ b.orders s.opposite, x.idNs ≠ y.idNs

theorem indexed_new : new.Indexed [] where
  exact s := by simpa using PriorityQueueAdapter.exactIndex_new
  known := by simp
  apart := by simp

variable {ids : List UInt64} {b b' : OrderBook}

theorem Indexed.extend {o : Order} (h : b.Indexed ids) (fresh : o.idNs ∉ ids)
    (exact : ∀ s, (b'.queue s).ExactIndex)
    (resting : ∀ s, ∀ x ∈ b'.orders s,
      (s = o.side ∧ x.idNs = o.idNs) ∨ ∃ y ∈ b.orders s, y.idNs = x.idNs) :
    b'.Indexed (ids ++ [o.idNs]) where
  exact := exact
  known s x hx := by
    rcases resting s x hx with ⟨-, hid⟩ | ⟨y, hy, hid⟩
    · simp [hid]
    · exact List.mem_append_left _ (hid ▸ h.known s y hy)
  apart s x hx y hy := by
    intro same
    rcases resting s x hx with ⟨hs, hx⟩ | ⟨x', hx', hid⟩ <;>
      rcases resting s.opposite y hy with ⟨ht, hy⟩ | ⟨y', hy', hid'⟩
    · exact Side.opposite_ne s (ht.trans hs.symm)
    · exact fresh (hx ▸ same ▸ hid' ▸ h.known _ y' hy')
    · exact fresh (hy ▸ same ▸ hid ▸ h.known _ x' hx')
    · exact h.apart s x' hx' y' hy' (hid.trans (same.trans hid'.symm))

theorem Submission.indexed {o : Order} {flags : ExecFlags} (hsub : Submission b o flags b')
    (wf : b.WellFormed) (h : b.Indexed ids) (fresh : o.idNs ∉ ids)
    (keys : o.isValid = true → KeysSurvive o.volume.toNat (priceCrosses o)
      (b.orders o.side.opposite)) : b'.Indexed (ids ++ [o.idNs]) := by
  have unseen : ∀ x ∈ (b.queue o.side).orders, x.idNs ≠ o.idNs :=
    fun x hx same => fresh (same ▸ h.known o.side x hx)
  refine h.extend fresh ?_ fun s x hx => hsub.rested wf s hx
  intro s
  cases hsub with
  | refused invalid => exact h.exact s
  | rests valid apart =>
      rcases Side.eq_or_opposite s o.side with rfl | rfl
      · simpa using (h.exact o.side).push valid unseen
      · simpa using h.exact o.side.opposite
  | @filled valid m crosses sweep exhausted =>
      rcases Side.eq_or_opposite s o.side with rfl | rfl
      · simpa using h.exact o.side
      · simpa using sweep.exactIndex (wf.valid _) (h.exact _) (keys valid)
  | @partly valid m crosses sweep left =>
      have residual := sweep.residual_isValid valid left
      have sameId : m.incoming.idNs = o.idNs := sweep.idNs_eq
      rcases Side.eq_or_opposite s o.side with rfl | rfl
      · simpa using (h.exact o.side).push residual (by rwa [sameId])
      · simpa using sweep.exactIndex (wf.valid _) (h.exact _) (keys valid)

theorem Cancellation.indexed {id : UInt64} {flags : ExecFlags}
    (hcancel : Cancellation b id flags b') (h : b.Indexed ids) : b'.Indexed ids := by
  cases hcancel with
  | absent bids asks => exact h
  | @removed s o q found first gone =>
      have perm := orders_subset_of_find found gone
      have sub : ∀ t, ∀ x ∈ ((b.setQueue s q).subVolume o.priceQ4 s o.volume).orders t,
          x ∈ b.orders t := by
        intro t x hx
        rcases Side.eq_or_opposite t s with rfl | rfl
        · simp only [orders, queue_subVolume, queue_setQueue] at hx
          exact perm.mem_iff.mpr (List.mem_cons_of_mem _ hx)
        · simpa [orders] using hx
      refine ⟨?_, ?_, ?_⟩
      · intro t
        rcases Side.eq_or_opposite t s with rfl | rfl
        · simpa using (h.exact t).remove found gone
        · simpa using h.exact s.opposite
      · exact fun t x hx => h.known t x (sub t x hx)
      · exact fun t x hx y hy => h.apart t x (sub t x hx) y (sub _ y hy)

theorem indexed_of_step {ts : List BookStep} {label : Request × ExecFlags}
    (run : BookRun ts b) (h : b.Indexed (submittedIds ts)) (answer : Answers b label b')
    (distinct : (submittedIds (ts ++ [⟨b, label, b'⟩])).Nodup)
    (keys : BookStep.KeysSurvive ⟨b, label, b'⟩) :
    b'.Indexed (submittedIds (ts ++ [⟨b, label, b'⟩])) := by
  have wf := wellFormed_of_run run
  have ids : submittedIds (ts ++ [⟨b, label, b'⟩]) =
      submittedIds ts ++ ((BookStep.submitted ⟨b, label, b'⟩).map Order.idNs).toList := by
    simp only [submittedIds, List.filterMap_append, List.map_append, List.filterMap_cons,
      List.filterMap_nil]
    cases BookStep.submitted ⟨b, label, b'⟩ <;> rfl
  have fresh : ∀ o, BookStep.submitted ⟨b, label, b'⟩ = some o → o.idNs ∉ submittedIds ts := by
    intro o ho hmem
    rw [ids, ho, List.nodup_append] at distinct
    exact distinct.2.2 _ hmem _ (by simp) rfl
  rw [ids]
  cases wf.answered answer with
  | submits sub => exact sub.indexed wf h (fresh _ rfl) (keys _ rfl)
  | cancels cancel => simpa [BookStep.submitted] using cancel.indexed h
  | misses found => simpa [BookStep.submitted, found] using h
  | @replaces id p v g u o q newFlags _ found gone sub =>
      have cancel := cancellation_withoutBid found gone
      have submitted : BookStep.submitted
          ⟨b, (.modifyOrder id p v g u, .cancelled ||| newFlags), b'⟩ =
            some (replacement o p v g u).1 := by simp [BookStep.submitted, found]
      have side := wf.replacement_side found p v g u
      have survive := keys _ submitted
      rw [submitted]
      refine sub.indexed (cancel.wellFormed wf) (cancel.indexed h) (fresh _ submitted) ?_
      rw [side] at survive ⊢
      exact survive

/-- In a run with distinct ids whose pops erase no wrong key, both indexes are exact;
lookups then find exactly what rests, and an id that does not rest cannot be
cancelled. -/
theorem run_index_exact {ts : List BookStep} {b : OrderBook} (run : BookRun ts b)
    (distinct : (submittedIds ts).Nodup) (keys : ∀ t ∈ ts, BookStep.KeysSurvive t) :
    (∀ s, (b.queue s).ExactIndex) ∧
      (∀ s, ∀ o ∈ b.orders s, b.getOrder o.idNs = .ok (some o)) ∧
      ∀ id, (∀ s, ∀ o ∈ b.orders s, o.idNs ≠ id) →
        b.getOrder id = .ok none ∧ b.cancelOrder id = .ok (.rejected, b) := by
  have h : (submittedIds ts).Nodup → b.Indexed (submittedIds ts) := by
    refine run.invariant_of (G := BookStep.KeysSurvive)
      (I := fun ts b => (submittedIds ts).Nodup → b.Indexed (submittedIds ts))
      (fun _ => indexed_new) ?_ keys
    intro ts b label b' before indexed answer good distinct
    refine indexed_of_step before (indexed ?_) answer distinct good
    simp only [submittedIds, List.filterMap_append, List.map_append] at distinct
    exact (List.nodup_append.mp distinct).1
  have h := h distinct
  refine ⟨h.exact, ?_, ?_⟩
  · intro s o ho
    refine getOrder_of_found ((h.exact s).find_of_mem ho) ?_
    rintro rfl
    exact (h.exact .buy).find_of_absent fun x hx => h.apart .buy x hx o ho
  · intro id absent
    have bids := (h.exact .buy).find_of_absent (absent .buy)
    have asks := (h.exact .sell).find_of_absent (absent .sell)
    change b.buyOrders.find id = _ at bids
    change b.sellOrders.find id = _ at asks
    exact ⟨by simp only [getOrder, bids, asks], by simp only [cancelOrder, bids, asks]⟩

/-- Two asks whose packed ids fit the `int`, and a bid that fills one of them and takes
part of the other. -/
def smallIds : List Request :=
  [.newOrder (.plain .sell 0 1 100 10), .newOrder (.plain .sell 0 2 101 5),
    .newOrder (.plain .buy 0 3 101 12)]

theorem run_index_exact_small_ids :
    let b := (replay smallIds).2
    b.buyOrders.orders = [] ∧ b.sellOrders.orders = [.plain .sell 0 2 101 3] ∧
      (∀ s, (b.queue s).ExactIndex) ∧
      b.getOrder 2 = .ok (some (.plain .sell 0 2 101 3)) ∧
      (b.getOrder 1 = .ok none ∧ b.cancelOrder 1 = .ok (.rejected, b)) ∧
      b.getOrder 3 = .ok none ∧ b.cancelOrder 3 = .ok (.rejected, b) := by
  intro b
  have survive : ∀ t ∈ (replay smallIds).1, BookStep.KeysSurvive t := by
    intro t ht o ho _
    have small : ∀ t ∈ (replay smallIds).1, ∀ o ∈ t.submitted,
        (∀ r ∈ t.before.orders o.side.opposite, intKey r.idNs = r.idNs) ∧
          ((t.before.orders o.side.opposite).map Order.idNs).Nodup := by
      decide +kernel
    exact keysSurvive_of_intKey (small t ht o ho).1 (small t ht o ho).2
  obtain ⟨exactly, found, absent⟩ :=
    run_index_exact (replay_run smallIds) (by decide +kernel) survive
  have bids : b.orders .buy = [] := by decide +kernel
  have asks : b.orders .sell = [.plain .sell 0 2 101 3] := by decide +kernel
  have unknown : ∀ id, id ≠ 2 → ∀ s, ∀ o ∈ b.orders s, o.idNs ≠ id := by
    rintro id other s o ho rfl
    cases s with
    | buy =>
        rw [bids] at ho
        cases ho
    | sell =>
        rw [asks, List.mem_singleton] at ho
        exact other (by rw [ho]; decide)
  have rests : Order.plain .sell 0 2 101 3 ∈ b.orders .sell := by
    rw [asks]
    exact List.mem_singleton_self _
  have key : (Order.plain .sell 0 2 101 3).idNs = 2 := by decide
  have held := found .sell _ rests
  rw [key] at held
  exact ⟨bids, asks, exactly, held, absent 1 (unknown 1 (by decide)),
    absent 3 (unknown 3 (by decide))⟩

/-- An ask with a packed id above 2^32 is filled; its index entry stays behind, and
looking the id up or cancelling it dereferences the erased node. -/
theorem filled_ask_leaves_stale_entry :
    let run := replay [.newOrder (.plain .sell 1 1 100 10), .newOrder (.plain .buy 2 2 100 10)]
    BookRun run.1 run.2 ∧ (submittedIds run.1).Nodup ∧
      run.2.buyOrders.orders = [] ∧ run.2.sellOrders.orders = [] ∧
      ¬ run.2.sellOrders.ExactIndex ∧
      run.2.getOrder (Order.pack 1 1) = .error .erasedIterator ∧
      ∀ answer, run.2.cancelOrder (Order.pack 1 1) ≠ .ok answer := by
  intro run
  have stale : run.2.sellOrders.find (Order.pack 1 1) = .error .erasedIterator := by
    decide +kernel
  have bids : run.2.buyOrders.find (Order.pack 1 1) = .ok none := by decide +kernel
  have asks : run.2.sellOrders.orders = [] := by decide +kernel
  refine ⟨replay_run _, by decide +kernel, by decide +kernel, asks, ?_, ?_, ?_⟩
  · intro exact
    have found : run.2.sellOrders.find (Order.pack 1 1) = .ok none :=
      exact.find_of_absent (by simp [asks])
    rw [stale] at found
    cases found
  · simp only [getOrder, bids, stale]
  · intro answer
    simp only [cancelOrder, bids, stale]
    exact fun h => by cases h

end OrderBook

end FastLittleMarket
