import FastLittleMarket.Book.WellFormed

/-!
What holds of each queue in every run, whatever ids are submitted and whatever
keys `pop` erases: an index entry leads to an order with the id it is filed
under, or to a node that is gone.

A property of queues that a push of a valid order, a pop and a removal keep holds
of both queues of every reachable book.
-/

namespace FastLittleMarket

namespace PriorityQueueAdapter

variable {C : Comparator Order} {q : PriorityQueueAdapter C}

/-- Every index entry designates a node handed out before, and the order in it, if
the node is still there, has the id of the entry. -/
def Linked (q : PriorityQueueAdapter C) : Prop :=
  ∀ id it, q.idToIter id = some it →
    it < q.priceSorted.fresh ∧ ∀ o, q.priceSorted.deref it = some o → o.idNs = id

theorem linked_new : (new : PriorityQueueAdapter C).Linked := by
  intro id it entry
  cases entry

theorem Linked.push (h : q.Linked) {o : Order} (valid : o.isValid = true) :
    (q.push o).2.Linked := by
  intro id it entry
  rw [idToIter_push q valid] at entry
  rw [priceSorted_push q valid]
  by_cases hid : id = o.idNs
  · subst hid
    rw [Function.update_self] at entry
    cases entry
    refine ⟨Nat.lt_succ_self _, ?_⟩
    intro r hr
    rw [OrderedBag.deref_insert_fresh] at hr
    cases hr
    rfl
  · rw [Function.update_of_ne hid] at entry
    obtain ⟨old, links⟩ := h id it entry
    refine ⟨Nat.lt_succ_of_lt old, ?_⟩
    intro r hr
    rw [OrderedBag.deref_insert_of_ne _ _ (Nat.ne_of_lt old)] at hr
    exact links r hr

/-- Erasing any node and any key. -/
theorem Linked.erase (h : q.Linked) (it : Nat) (key : UInt64) :
    Linked (C := C) ⟨q.priceSorted.erase it, Function.update q.idToIter key none⟩ := by
  intro id jt entry
  dsimp only at entry ⊢
  by_cases hid : id = key
  · rw [hid, Function.update_self] at entry
    cases entry
  · rw [Function.update_of_ne hid] at entry
    obtain ⟨old, links⟩ := h id jt entry
    refine ⟨old, ?_⟩
    intro r hr
    exact links r (OrderedBag.deref_of_deref_erase hr)

theorem Linked.pop (h : q.Linked) : q.pop.2.Linked := by
  unfold PriorityQueueAdapter.pop
  cases q.priceSorted.begin? with
  | none => exact h
  | some n => exact h.erase n.1 (intKey n.2.idNs)

theorem Linked.remove (h : q.Linked) {id : UInt64} {q' : PriorityQueueAdapter C}
    (gone : q.remove id = .ok (true, q')) : q'.Linked := by
  obtain ⟨it, o, -, -, rfl⟩ := remove_eq_true.mp gone
  exact h.erase it id

theorem Linked.idNs_of_find (h : q.Linked) {id : UInt64} {o : Order}
    (found : q.find id = .ok (some o)) : o.idNs = id := by
  obtain ⟨it, entry, live⟩ := find_eq_some.mp found
  exact (h id it entry).2 o live

end PriorityQueueAdapter

/-- The queue keeps `I` under every operation a book applies to it. -/
structure QueueInvariant (I : ∀ C, PriorityQueueAdapter C → Prop) : Prop where
  new : ∀ C, I C .new
  push : ∀ C q o, o.isValid = true → I C q → I C (q.push o).2
  pop : ∀ C q, I C q → I C q.pop.2
  remove : ∀ C q id q', q.remove id = .ok (true, q') → I C q → I C q'

theorem queueInvariant_linked : QueueInvariant fun _ q => q.Linked where
  new _ := PriorityQueueAdapter.linked_new
  push _ _ _ valid h := h.push valid
  pop _ _ h := h.pop
  remove _ _ _ _ gone h := h.remove gone

namespace QueueInvariant

open OrderBook

variable {I : ∀ C, PriorityQueueAdapter C → Prop} (inv : QueueInvariant I)
include inv

theorem sweeps {s : Side} {m m' : Matching s} {ms : List (Matching s)} (h : Sweeps m ms m')
    (valid : ∀ r ∈ m.opposite.orders, r.isValid = true) (keeps : I _ m.opposite) :
    I _ m'.opposite := by
  induction h with
  | stop h => exact keeps
  | @consume m m' ms r rest first crosses left fits next ih =>
      have tail := orders_consume first
      exact ih (fun x hx => valid x (by rw [tail] at hx; simp [first, hx])) (inv.pop _ _ keeps)
  | @reduce m r rest first crosses left exceeds =>
      exact inv.push _ _ _ ((shrunk_sub exceeds).isValid (valid r (by simp [first])))
        (inv.pop _ _ keeps)

theorem submission {b b' : OrderBook} {o : Order} {flags : ExecFlags}
    (sub : Submission b o flags b') (wf : b.WellFormed) (keeps : ∀ s, I _ (b.queue s)) (s : Side) :
    I _ (b'.queue s) := by
  cases sub with
  | refused invalid => exact keeps s
  | rests valid apart =>
      rcases Side.eq_or_opposite s o.side with rfl | rfl
      · simpa using inv.push _ _ _ valid (keeps o.side)
      · simpa using keeps o.side.opposite
  | @filled valid m crosses sweep exhausted =>
      rcases Side.eq_or_opposite s o.side with rfl | rfl
      · simpa using keeps o.side
      · simpa using inv.sweeps sweep (wf.valid _) (keeps _)
  | @partly valid m crosses sweep left =>
      rcases Side.eq_or_opposite s o.side with rfl | rfl
      · simpa using inv.push _ _ _ (sweep.residual_isValid valid left) (keeps o.side)
      · simpa using inv.sweeps sweep (wf.valid _) (keeps _)

theorem cancellation {b b' : OrderBook} {id : UInt64} {flags : ExecFlags}
    (cancel : Cancellation b id flags b') (keeps : ∀ s, I _ (b.queue s)) (s : Side) :
    I _ (b'.queue s) := by
  cases cancel with
  | absent bids asks => exact keeps s
  | @removed t o q found first gone =>
      rcases Side.eq_or_opposite s t with rfl | rfl
      · simpa using inv.remove _ _ _ _ gone (keeps s)
      · simpa using keeps t.opposite

theorem of_run {steps : List BookStep} {b : OrderBook} (run : BookRun steps b) (s : Side) :
    I _ (b.queue s) := by
  refine (Run.invariant (I := fun b => b.WellFormed ∧ ∀ s, I _ (b.queue s))
    ⟨wellFormed_new, fun s => by simpa using inv.new _⟩ ?_ run).2 s
  rintro b label b' ⟨wf, keeps⟩ answer
  refine ⟨answer.wellFormed wf, ?_⟩
  cases wf.answered answer with
  | submits sub => exact inv.submission sub wf keeps
  | cancels cancel => exact inv.cancellation cancel keeps
  | misses found => exact keeps
  | replaces found gone sub =>
      have cancel := cancellation_withoutBid found gone
      exact inv.submission sub (cancel.wellFormed wf) (inv.cancellation cancel keeps)

end QueueInvariant

theorem OrderBook.linked_of_run {steps : List BookStep} {b : OrderBook} (run : BookRun steps b)
    (s : Side) : (b.queue s).Linked :=
  queueInvariant_linked.of_run run s

end FastLittleMarket
