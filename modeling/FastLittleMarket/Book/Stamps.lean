import FastLittleMarket.Book.Cancel
import FastLittleMarket.Book.Priority
import FastLittleMarket.Book.Resting

/-!
Runs in which all submitted orders have different 32-bit timestamps.

An index may keep stale keys in such a run, but it never loses an order that rests: the
key that a pop erases is the id of the popped order or has its timestamp, and no other
order has that. So every resting order is found under its id and cancelled by it, and
ids that were never submitted are unknown.
-/

namespace FastLittleMarket

namespace PriorityQueueAdapter

variable {C : Comparator Order} {q : PriorityQueueAdapter C} {K : UInt64 → Prop}

/-- Every key of the index and every id in the queue satisfies `K`. -/
structure Known (K : UInt64 → Prop) (q : PriorityQueueAdapter C) : Prop where
  keys : ∀ id it, q.idToIter id = some it → K id
  ids : ∀ o ∈ q.orders, K o.idNs

theorem known_new : (new : PriorityQueueAdapter C).Known K where
  keys _ _ h := by cases h
  ids _ h := by cases h

theorem Known.mono {K' : UInt64 → Prop} (h : q.Known K) (sub : ∀ id, K id → K' id) :
    q.Known K' where
  keys id it entry := sub id (h.keys id it entry)
  ids o ho := sub _ (h.ids o ho)

theorem Known.push (h : q.Known K) {o : Order} (valid : o.isValid = true) (own : K o.idNs) :
    (q.push o).2.Known K where
  keys id it entry := by
    rw [idToIter_push q valid] at entry
    by_cases same : id = o.idNs
    · exact same ▸ own
    · rw [Function.update_of_ne same] at entry
      exact h.keys id it entry
  ids x hx := by
    rcases List.mem_cons.mp ((orders_push_perm q valid).mem_iff.mp hx) with rfl | hx
    · exact own
    · exact h.ids x hx

/-- A node and a key less leave nothing new. -/
theorem Known.erase (h : q.Known K) (it : Nat) (key : UInt64) :
    Known (C := C) K ⟨q.priceSorted.erase it, Function.update q.idToIter key none⟩ where
  keys id jt entry := by
    dsimp only at entry
    by_cases same : id = key
    · rw [same, Function.update_self] at entry
      cases entry
    · rw [Function.update_of_ne same] at entry
      exact h.keys id jt entry
  ids x hx := by
    obtain ⟨jt, live⟩ := OrderedBag.exists_deref_of_mem_values hx
    exact h.ids x (OrderedBag.mem_values_of_deref (OrderedBag.deref_of_deref_erase live))

theorem Known.pop (h : q.Known K) {r : Order} {rest : List Order} (first : q.orders = r :: rest) :
    q.pop.2.Known K := by
  obtain ⟨it, -, popped⟩ := pop_eq first
  rw [popped]
  exact h.erase it (intKey r.idNs)

theorem Known.remove (h : q.Known K) {id : UInt64} {q' : PriorityQueueAdapter C}
    (gone : q.remove id = .ok (true, q')) : q'.Known K := by
  obtain ⟨it, o, -, -, rfl⟩ := remove_eq_true.mp gone
  exact h.erase it id

theorem Known.find_of_unknown (h : q.Known K) {id : UInt64} (unknown : ¬ K id) :
    q.find id = .ok none := by
  rw [find_eq_none]
  cases entry : q.idToIter id with
  | none => rfl
  | some it => exact absurd (h.keys id it entry) unknown

theorem toUInt32_toUInt64 (v : Int64) : v.toUInt64.toUInt32 = v.toInt32.toUInt32 := by
  apply UInt32.toBitVec_inj.mp
  exact (BitVec.signExtend_eq_setWidth_of_le v.toBitVec (by decide)).symm

/-- The cut to `int` and back keeps the timestamp. -/
theorem stampOf_intKey (id : UInt64) : OrderBook.stampOf (intKey id) = OrderBook.stampOf id := by
  simp [OrderBook.stampOf, Order.unpack, intKey, toUInt32_toUInt64]

end PriorityQueueAdapter

namespace OrderBook

variable {s : Side} {b b' : OrderBook} {issued : List Order}

/-- What a greedy match leaves has the ids it had. -/
theorem idNs_of_contraAfter {volume : ℕ} {crosses : Order → Bool} {rs : List Order} {x : Order}
    (hx : x ∈ contraAfter volume crosses rs) : ∃ r ∈ rs, r.idNs = x.idNs := by
  unfold contraAfter at hx
  rw [List.reduceOption_mem_iff, List.mem_mapIdx] at hx
  obtain ⟨i, hi, left⟩ := hx
  refine ⟨rs[i], List.getElem_mem hi, ?_⟩
  unfold afterFill at left
  split_ifs at left
  cases left
  rfl

/-- An order of side `s` with this id was issued. -/
def Issued (issued : List Order) (s : Side) (id : UInt64) : Prop :=
  ∃ o ∈ issued, o.side = s ∧ o.idNs = id

theorem Issued.append (o : List Order) {id : UInt64} (h : Issued issued s id) :
    Issued (issued ++ o) s id := by
  obtain ⟨x, hx, facts⟩ := h
  exact ⟨x, List.mem_append_left o hx, facts⟩

theorem issued_last (o : Order) : Issued (issued ++ [o]) o.side o.idNs :=
  ⟨o, by simp, rfl, rfl⟩

/-- Orders issued with different timestamps are told apart by them. -/
theorem Issued.eq_of_stamp (stamped : (issued.map Order.timestamp).Nodup) {t : Side}
    {id id' : UInt64} (h : Issued issued s id) (h' : Issued issued t id')
    (same : stampOf id = stampOf id') : s = t ∧ id = id' := by
  obtain ⟨o, ho, rfl, rfl⟩ := h
  obtain ⟨o', ho', rfl, rfl⟩ := h'
  have one : o = o' := List.inj_on_of_nodup_map stamped ho ho' same
  exact ⟨congrArg Order.side one, congrArg Order.idNs one⟩

theorem Issued.ne_of_fresh {o : Order} (stamped : ((issued ++ [o]).map Order.timestamp).Nodup)
    {id : UInt64} (h : Issued issued s id) : id ≠ o.idNs := by
  rintro rfl
  obtain ⟨x, hx, -, same⟩ := h
  rw [List.map_append, List.nodup_append] at stamped
  have apart := stamped.2.2 x.timestamp (List.mem_map_of_mem hx) o.timestamp (by simp)
  exact apart (congrArg stampOf same)

/-- The resting orders and the keys of both indexes were issued for their side, the
indexes lead to every resting order, and no id rests on both sides. -/
structure Stamped (issued : List Order) (b : OrderBook) : Prop where
  known : ∀ s, (b.queue s).Known (Issued issued s)
  cancellable : b.Cancellable

theorem stamped_new : new.Stamped [] where
  known s := by
    rw [queue_new]
    exact PriorityQueueAdapter.known_new
  cancellable := cancellable_new

theorem Sweeps.known {K : UInt64 → Prop} {m m' : Matching s} {ms : List (Matching s)}
    (h : Sweeps m ms m') (valid : ∀ r ∈ m.opposite.orders, r.isValid = true)
    (known : m.opposite.Known K) : m'.opposite.Known K := by
  induction h with
  | stop h => exact known
  | @consume m m' ms r rest first crosses left fits next ih =>
      have tail := orders_consume first
      exact ih (fun x hx => valid x (by rw [tail] at hx; simp [first, hx])) (known.pop first)
  | @reduce m r rest first crosses left exceeds =>
      have valid := (shrunk_sub exceeds).isValid (valid r (by simp [first]))
      exact (known.pop first).push valid (known.ids r (by simp [first]))

theorem Submission.known {o : Order} {flags : ExecFlags} (sub : Submission b o flags b')
    (wf : b.WellFormed) {K : Side → UInt64 → Prop} (known : ∀ s, (b.queue s).Known (K s))
    (own : K o.side o.idNs) (s : Side) : (b'.queue s).Known (K s) := by
  cases sub with
  | refused invalid => exact known s
  | rests valid apart =>
      rcases Side.eq_or_opposite s o.side with rfl | rfl
      · simpa using (known o.side).push valid own
      · simpa using known o.side.opposite
  | @filled valid m crosses sweep exhausted =>
      rcases Side.eq_or_opposite s o.side with rfl | rfl
      · simpa using known o.side
      · simpa using sweep.known (wf.valid _) (known _)
  | @partly valid m crosses sweep left =>
      rcases Side.eq_or_opposite s o.side with rfl | rfl
      · have same : m.incoming.idNs = o.idNs := sweep.idNs_eq
        simpa using (known o.side).push (sweep.residual_isValid valid left) (same ▸ own)
      · simpa using sweep.known (wf.valid _) (known _)

theorem Cancellation.known {id : UInt64} {flags : ExecFlags} (cancel : Cancellation b id flags b')
    {K : Side → UInt64 → Prop} (known : ∀ s, (b.queue s).Known (K s)) (s : Side) :
    (b'.queue s).Known (K s) := by
  cases cancel with
  | absent bids asks => exact known s
  | @removed t o q found first gone =>
      rcases Side.eq_or_opposite s t with rfl | rfl
      · simpa using (known s).remove gone
      · simpa using known t.opposite

theorem Cancellation.stamped {id : UInt64} {flags : ExecFlags}
    (cancel : Cancellation b id flags b') (h : b.Stamped issued) : b'.Stamped issued where
  known := cancel.known h.known
  cancellable := cancel.cancellable h.cancellable

/-- A submission with a new timestamp costs no resting order its key. -/
theorem Submission.stamped {o : Order} {flags : ExecFlags} (sub : Submission b o flags b')
    (wf : b.WellFormed) (h : b.Stamped issued)
    (fresh : ((issued ++ [o]).map Order.timestamp).Nodup) : b'.Stamped (issued ++ [o]) := by
  have stamped : (issued.map Order.timestamp).Nodup := by
    rw [List.map_append] at fresh
    exact fresh.of_append_left
  refine ⟨?_, sub.cancellable wf h.cancellable ?_ ?_⟩
  · exact sub.known wf (K := Issued (issued ++ [o]))
      (fun s => (h.known s).mono fun id known => known.append [o]) (issued_last o)
  · intro valid keeps x hx
    rcases List.mem_append.mp hx with hx | hx
    · exact ((h.known o.side).ids x hx).ne_of_fresh fresh
    · obtain ⟨r, hr, same⟩ := idNs_of_contraAfter hx
      rw [← same]
      exact ((h.known o.side.opposite).ids r hr).ne_of_fresh fresh
  · intro valid p hp filled x hx same
    obtain ⟨r, hr, own⟩ := idNs_of_contraAfter hx
    have hp : p.1 ∈ b.orders o.side.opposite := List.fst_mem_of_mem_zipIdx hp
    have known := (h.known o.side.opposite).ids
    have stamp : stampOf r.idNs = stampOf p.1.idNs := by
      rw [own, same, PriorityQueueAdapter.stampOf_intKey]
    have one := ((known r hr).eq_of_stamp stamped (known p.1 hp) stamp).2
    rw [← same, ← own, one]

theorem Answered.stamped {label : Request × ExecFlags} (answered : Answered b label b')
    (wf : b.WellFormed) (h : b.Stamped issued)
    (fresh : ((issued ++ (BookStep.submitted ⟨b, label, b'⟩).toList).map
      Order.timestamp).Nodup) :
    b'.Stamped (issued ++ (BookStep.submitted ⟨b, label, b'⟩).toList) := by
  cases answered with
  | submits sub => exact sub.stamped wf h fresh
  | cancels cancel =>
      simp only [BookStep.submitted, Option.toList_none, List.append_nil]
      exact cancel.stamped h
  | misses found => simpa [BookStep.submitted, found] using h
  | replaces found gone sub =>
      have cancel := cancellation_withoutBid found gone
      simp only [BookStep.submitted, found, Option.toList_some] at fresh ⊢
      exact sub.stamped (cancel.wellFormed wf) (cancel.stamped h) fresh

theorem submitted_snoc (ts : List BookStep) (t : BookStep) :
    (ts ++ [t]).filterMap BookStep.submitted =
      ts.filterMap BookStep.submitted ++ t.submitted.toList := by
  rw [List.filterMap_append]
  cases h : t.submitted <;> simp [h]

theorem stamped_of_run {ts : List BookStep} (run : BookRun ts b)
    (fresh : ((ts.filterMap BookStep.submitted).map Order.timestamp).Nodup) :
    b.Stamped (ts.filterMap BookStep.submitted) := by
  induction run with
  | start => exact stamped_new
  | @snoc ts b b' label run answer ih =>
      have wf := wellFormed_of_run run
      rw [submitted_snoc] at fresh ⊢
      have earlier : ((ts.filterMap BookStep.submitted).map Order.timestamp).Nodup := by
        rw [List.map_append] at fresh
        exact fresh.of_append_left
      exact (wf.answered answer).stamped wf (ih earlier) fresh

section Served

variable (h : b.Stamped issued) (stamped : (issued.map Order.timestamp).Nodup)
include h

theorem Stamped.find_own {o : Order} (ho : o ∈ b.orders s) :
    (b.queue s).find o.idNs = .ok (some o) := by
  obtain ⟨it, live⟩ := OrderedBag.exists_deref_of_mem_values ho
  exact PriorityQueueAdapter.find_eq_some.mpr
    ⟨it, h.cancellable.live s it o live trivial, live⟩

include stamped

theorem Stamped.find_other {o : Order} (ho : o ∈ b.orders s) :
    (b.queue s.opposite).find o.idNs = .ok none := by
  apply (h.known s.opposite).find_of_unknown
  intro other
  have sides := (other.eq_of_stamp stamped ((h.known s).ids o ho) rfl).1
  exact Side.opposite_ne s sides

theorem Stamped.found_first {o : Order} (ho : o ∈ b.orders s) :
    s = .sell → b.buyOrders.find o.idNs = .ok none := by
  rintro rfl
  exact h.find_other stamped ho

/-- A resting order is found under its id, and a cancellation takes out it alone. -/
theorem Stamped.serves (linked : ∀ s, (b.queue s).Linked) {o : Order} (ho : o ∈ b.orders s) :
    b.getOrder o.idNs = .ok (some o) ∧
      ∃ b', b.cancelOrder o.idNs = .ok (.cancelled, b') ∧
        ∀ t, b'.orders t = (b.orders t).filter fun x => x.idNs ≠ o.idNs := by
  have found := h.find_own ho
  have first := h.found_first stamped ho
  obtain ⟨q, -, cancel⟩ := cancelOn_of_find found
  rw [← cancelOrder_of_find found first] at cancel
  refine ⟨getOrder_of_found found first, _, cancel, fun t => ?_⟩
  exact (((h.cancellable.contract linked o.idNs) _ _ cancel).1 rfl t).2

omit stamped in
/-- An id that was never issued is unknown. -/
theorem Stamped.unknown {id : UInt64} (never : ∀ o ∈ issued, o.idNs ≠ id) :
    b.getOrder id = .ok none ∧ b.cancelOrder id = .ok (.rejected, b) := by
  have absent : ∀ s, (b.queue s).find id = .ok none := by
    intro s
    apply (h.known s).find_of_unknown
    rintro ⟨o, ho, -, same⟩
    exact never o ho same
  have bids : b.buyOrders.find id = .ok none := absent .buy
  have asks : b.sellOrders.find id = .ok none := absent .sell
  exact ⟨by simp only [getOrder, bids, asks], by simp only [cancelOrder, bids, asks]⟩

end Served

end OrderBook

end FastLittleMarket
