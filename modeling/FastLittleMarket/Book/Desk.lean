import Mathlib.Data.List.Range
import FastLittleMarket.Book.Sequence
import FastLittleMarket.Book.Stamps

/-!
A book with the one sequencer that all its orders are constructed from, as the clients
of the book use the two. Clients may take turns in any order; a modification takes its
stamp from the same sequencer.
-/

namespace FastLittleMarket

structure Desk where
  book : OrderBook
  sequencer : GlobalSequencer

/-- What a client asks for: an order constructed and submitted, or one of the calls on
an id. -/
inductive DeskRequest where
  | submit (arguments : OrderArguments)
  | cancelOrder (orderId : UInt64)
  | modifyOrder (orderId : UInt64) (newPriceQ4 newVolume : UInt32) (unset : UnsetFlags)

/-- The call on the book, when the sequencer stands at `sequencer`. -/
def DeskRequest.onBook (sequencer : GlobalSequencer) : DeskRequest → Request
  | .submit arguments => .newOrder (Order.construct sequencer arguments).1
  | .cancelOrder orderId => .cancelOrder orderId
  | .modifyOrder orderId newPriceQ4 newVolume unset =>
      .modifyOrder orderId newPriceQ4 newVolume sequencer unset

namespace Desk

def new (sequencer : GlobalSequencer) : Desk := ⟨.new, sequencer⟩

def step (d : Desk) : DeskRequest → Except BookFault (ExecFlags × Desk)
  | .submit arguments =>
      let (order, sequencer) := Order.construct d.sequencer arguments
      (d.book.newOrder order).map fun r => (r.1, ⟨r.2, sequencer⟩)
  | .cancelOrder orderId => (d.book.cancelOrder orderId).map fun r => (r.1, { d with book := r.2 })
  | .modifyOrder orderId newPriceQ4 newVolume unset =>
      (d.book.modifyOrder orderId newPriceQ4 newVolume d.sequencer unset).map fun r =>
        (r.1, ⟨r.2.1, r.2.2⟩)

def Answers (d : Desk) (label : DeskRequest × ExecFlags) (d' : Desk) : Prop :=
  d.step label.1 = .ok (label.2, d')

abbrev DeskStep := Taken Desk (DeskRequest × ExecFlags)

abbrev DeskRun (sequencer : GlobalSequencer) (ts : List DeskStep) (d : Desk) : Prop :=
  Run Answers (new sequencer) ts d

/-- The step of the book alone. -/
def onBook (t : DeskStep) : OrderBook.BookStep :=
  ⟨t.before.book, (t.label.1.onBook t.before.sequencer, t.label.2), t.after.book⟩

/-- The orders constructed so far, replacements included. -/
def issued (ts : List DeskStep) : List Order :=
  (ts.map onBook).filterMap OrderBook.BookStep.submitted

variable {g : GlobalSequencer} {ts : List DeskStep} {d d' : Desk}

theorem Answers.onBook {label : DeskRequest × ExecFlags} (answer : d.Answers label d') :
    d.book.Answers (label.1.onBook d.sequencer, label.2) d'.book := by
  obtain ⟨request, flags⟩ := label
  unfold Answers step at answer
  unfold OrderBook.Answers OrderBook.step
  cases request with
  | submit arguments =>
      obtain ⟨r, submitted, same⟩ := Loop.exists_of_map answer
      cases same
      exact submitted
  | cancelOrder id =>
      obtain ⟨r, cancelled, same⟩ := Loop.exists_of_map answer
      cases same
      exact cancelled
  | modifyOrder id p v u =>
      obtain ⟨r, modified, same⟩ := Loop.exists_of_map answer
      cases same
      simp only [DeskRequest.onBook, modified, Except.map]

theorem DeskRun.onBook (run : DeskRun g ts d) : OrderBook.BookRun (ts.map onBook) d.book :=
  run.map Desk.book (fun d label => (label.1.onBook d.sequencer, label.2))
    fun _ _ _ _ _ answer => answer.onBook

theorem replacement_stamp (o : Order) (p v : UInt32) (g : GlobalSequencer) (u : UnsetFlags) :
    (OrderBook.replacement o p v g u).1.timestamp.toNat = Order.nextStamp g ∧
      Order.nextStamp (OrderBook.replacement o p v g u).2 =
        (Order.nextStamp g + 1) % 4294967296 := by
  refine ⟨?_, Order.nextStamp_nextTimestampNs g⟩
  rw [Order.timestamp, OrderBook.replacement_fields, Order.unpack_pack,
    ← Order.toNat_nextTimestampNs]

/-- A step that constructs an order stamps it and moves the sequencer on by one; the
other steps leave the sequencer alone. -/
theorem Answers.sequencer {label : DeskRequest × ExecFlags} (wf : d.book.WellFormed)
    (answer : d.Answers label d') :
    match (Desk.onBook ⟨d, label, d'⟩).submitted with
    | none => d'.sequencer = d.sequencer
    | some o => o.timestamp.toNat = Order.nextStamp d.sequencer ∧
        Order.nextStamp d'.sequencer = (Order.nextStamp d.sequencer + 1) % 4294967296 := by
  obtain ⟨request, flags⟩ := label
  unfold Answers step at answer
  cases request with
  | submit arguments =>
      obtain ⟨r, -, same⟩ := Loop.exists_of_map answer
      cases same
      exact ⟨Order.construct_timestamp _ arguments, Order.construct_nextStamp _ arguments⟩
  | cancelOrder id =>
      obtain ⟨r, -, same⟩ := Loop.exists_of_map answer
      cases same
      rfl
  | modifyOrder id p v u =>
      obtain ⟨r, modified, same⟩ := Loop.exists_of_map answer
      cases same
      simp only [Desk.onBook, DeskRequest.onBook, OrderBook.BookStep.submitted]
      cases found : d.book.buyOrders.find id with
      | error e => simp [OrderBook.modifyOrder, found] at modified
      | ok bid =>
          cases bid with
          | none =>
              rw [OrderBook.modifyOrder_of_absent found] at modified
              cases modified
              rfl
          | some o =>
              obtain ⟨q, newFlags, b', -, -, hm⟩ := wf.modifyOrder_of_find found p v d.sequencer u
              rw [hm] at modified
              cases modified
              exact replacement_stamp o p v d.sequencer u

/-- The orders are stamped one after the other, from where the sequencer started. -/
structure Consecutive (g : GlobalSequencer) (orders : List Order) (sequencer : GlobalSequencer) :
    Prop where
  stamps : orders.map (fun o => o.timestamp.toNat) =
    (List.range orders.length).map fun i => (Order.nextStamp g + i) % 4294967296
  next : Order.nextStamp sequencer = (Order.nextStamp g + orders.length) % 4294967296

theorem consecutive_new (g : GlobalSequencer) : Consecutive g [] g where
  stamps := rfl
  next := by simp [Order.nextStamp]

theorem Consecutive.snoc {orders : List Order} {sequencer later : GlobalSequencer} {o : Order}
    (h : Consecutive g orders sequencer) (stamp : o.timestamp.toNat = Order.nextStamp sequencer)
    (moves : Order.nextStamp later = (Order.nextStamp sequencer + 1) % 4294967296) :
    Consecutive g (orders ++ [o]) later where
  stamps := by
    rw [List.map_append, h.stamps, List.length_append, List.length_singleton, List.range_succ,
      List.map_append, List.map_singleton, List.map_singleton, stamp, h.next]
  next := by
    rw [moves, h.next, List.length_append, List.length_singleton]
    omega

theorem Consecutive.nodup {orders : List Order} {sequencer : GlobalSequencer}
    (h : Consecutive g orders sequencer) (few : orders.length ≤ 4294967296) :
    (orders.map Order.timestamp).Nodup := by
  have numbers : (orders.map fun o => o.timestamp.toNat).Nodup := by
    rw [h.stamps]
    refine List.Nodup.map_on ?_ List.nodup_range
    intro i hi j hj same
    rw [List.mem_range] at hi hj
    omega
  rw [← Function.comp_def, ← List.map_map] at numbers
  exact numbers.of_map

theorem issued_snoc (ts : List DeskStep) (t : DeskStep) :
    issued (ts ++ [t]) = issued ts ++ (onBook t).submitted.toList := by
  unfold issued
  rw [List.map_append]
  exact OrderBook.submitted_snoc _ _

theorem consecutive_of_run (run : DeskRun g ts d) : Consecutive g (issued ts) d.sequencer := by
  induction run with
  | start => exact consecutive_new g
  | @snoc ts d d' label run answer ih =>
      have wf := OrderBook.wellFormed_of_run (DeskRun.onBook run)
      have moved := answer.sequencer wf
      rw [issued_snoc]
      cases submitted : (Desk.onBook ⟨d, label, d'⟩).submitted with
      | none =>
          rw [submitted] at moved
          rw [Option.toList_none, List.append_nil, moved]
          exact ih
      | some o =>
          rw [submitted] at moved
          exact ih.snoc moved.1 moved.2

/-- As long as no more than 2^32 orders were constructed, every resting order is found
under its id and a cancellation takes out it alone, and ids that were not issued are
unknown: whatever was traded, cancelled or modified before, and whatever keys the
indexes kept of it. -/
theorem desk_serves_resting (run : DeskRun g ts d) (few : (issued ts).length ≤ 4294967296) :
    (∀ s, ∀ o ∈ d.book.orders s, d.book.getOrder o.idNs = .ok (some o) ∧
        ∃ b', d.book.cancelOrder o.idNs = .ok (.cancelled, b') ∧
          ∀ t, b'.orders t = (d.book.orders t).filter fun x => x.idNs ≠ o.idNs) ∧
      ∀ id, (∀ o ∈ issued ts, o.idNs ≠ id) →
        d.book.getOrder id = .ok none ∧ d.book.cancelOrder id = .ok (.rejected, d.book) := by
  have onBook := DeskRun.onBook run
  have stamped := (consecutive_of_run run).nodup few
  have kept := OrderBook.stamped_of_run onBook stamped
  exact ⟨fun s o ho => kept.serves stamped (OrderBook.linked_of_run onBook) ho,
    fun id never => kept.unknown never⟩

/-- An ask that a bid fills, which leaves its key behind, and another ask. -/
theorem desk_serves_resting_ask :
    ∃ ts d, DeskRun ⟨100, 0⟩ ts d ∧ d.book.orders .sell = [.plain .sell 9 102 101 5] ∧
      (∃ it, d.book.sellOrders.idToIter (Order.pack 7 100) = some it ∧
        d.book.sellOrders.priceSorted.deref it = none) ∧
      d.book.getOrder (Order.pack 9 102) = .ok (some (.plain .sell 9 102 101 5)) ∧
      ∃ b', d.book.cancelOrder (Order.pack 9 102) = .ok (.cancelled, b') ∧
        ∀ t, b'.orders t = (d.book.orders t).filter fun x => x.idNs ≠ Order.pack 9 102 := by
  let client : StringView := ⟨fun i => if i = 0 then 65 else 0, 1⟩
  have run : DeskRun ⟨100, 0⟩ _ _ := Run.replay step .start
    [.submit ⟨7, 100, 10, false, client, ⟨0, 0⟩⟩, .submit ⟨8, 100, 10, true, client, ⟨0, 0⟩⟩,
      .submit ⟨9, 101, 5, false, client, ⟨0, 0⟩⟩]
  refine ⟨_, _, run, by decide +kernel, ⟨0, by decide +kernel, by decide +kernel⟩, ?_⟩
  exact (desk_serves_resting run (by decide +kernel)).1 .sell (.plain .sell 9 102 101 5)
    (by decide +kernel)

end Desk

end FastLittleMarket
