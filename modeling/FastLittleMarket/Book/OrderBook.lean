import FastLittleMarket.Library.Loop
import FastLittleMarket.Book.Queue

/-!
The order book: submission with matching, cancellation, modification and the
read-only queries, with the aggregate volume map.

The fill passes through a signed 32-bit local and is subtracted from unsigned
volumes; the volume map holds signed values updated by unsigned arithmetic. The
matching loop gets a budget of one round per resting contra order.
-/

namespace FastLittleMarket

structure ExecFlags where
  bits : UInt8
  deriving DecidableEq, Repr

namespace ExecFlags

def none : ExecFlags := ⟨0⟩
def accepted : ExecFlags := ⟨(1 : UInt8) <<< 0⟩
def partiallyFilled : ExecFlags := ⟨(1 : UInt8) <<< 1⟩
def fullyFilled : ExecFlags := ⟨(1 : UInt8) <<< 2⟩
def cancelled : ExecFlags := ⟨(1 : UInt8) <<< 3⟩
def rejected : ExecFlags := ⟨(1 : UInt8) <<< 4⟩

instance : OrOp ExecFlags := ⟨fun a b => ⟨a.bits ||| b.bits⟩⟩
instance : AndOp ExecFlags := ⟨fun a b => ⟨a.bits &&& b.bits⟩⟩

def hasFlag (flags f : ExecFlags) : Bool := flags &&& f ≠ none

def isValid (f : ExecFlags) : Bool :=
  if hasFlag f rejected then f = rejected
  else if hasFlag f partiallyFilled && hasFlag f fullyFilled then false
  else if hasFlag f cancelled && hasFlag f accepted then false
  else true

end ExecFlags

structure TopOfBook where
  bid : Option Order
  ask : Option Order
  deriving DecidableEq, Repr

structure OrderBook where
  sellOrders : PriorityQueueAdapter (comparator .sell)
  buyOrders : PriorityQueueAdapter (comparator .buy)
  volumes : UInt32 × Side → Option Int32

namespace OrderBook

def new : OrderBook where
  sellOrders := .new
  buyOrders := .new
  volumes _ := none

/-- The queue a `BUY_SIDE` test on `s` selects. -/
def queue (b : OrderBook) : (s : Side) → PriorityQueueAdapter (comparator s)
  | .buy => b.buyOrders
  | .sell => b.sellOrders

def setQueue (b : OrderBook) : (s : Side) → PriorityQueueAdapter (comparator s) → OrderBook
  | .buy, q => { b with buyOrders := q }
  | .sell, q => { b with sellOrders := q }

/-- `volumes_[{price, side}] += volume`, with the absent entry read as 0. -/
def addVolume (b : OrderBook) (price : UInt32) (side : Side) (volume : UInt32) : OrderBook :=
  { b with
    volumes := Function.update b.volumes (price, side)
      (some (((b.volumes (price, side)).getD 0).toUInt32 + volume).toInt32) }

def subVolume (b : OrderBook) (price : UInt32) (side : Side) (volume : UInt32) : OrderBook :=
  { b with
    volumes := Function.update b.volumes (price, side)
      (some (((b.volumes (price, side)).getD 0).toUInt32 - volume).toInt32) }

def priceCrosses (incoming opposite : Order) : Bool :=
  match incoming.side with
  | .buy => opposite.priceQ4 ≤ incoming.priceQ4
  | .sell => opposite.priceQ4 ≥ incoming.priceQ4

def canCross (b : OrderBook) (incoming : Order) : Bool :=
  match (b.queue incoming.side.opposite).top with
  | none => false
  | some best => priceCrosses incoming best

/-- The incoming order and the contra queue inside the matching loop. -/
structure Matching (s : Side) where
  incoming : Order
  opposite : PriorityQueueAdapter (comparator s)

/-- The fill of one round, through `const int trade_volume`. -/
def tradeVolume (incoming best : Order) : Int32 := (min incoming.volume best.volume).toInt32

def matchBody {s : Side} (m : Matching s) :
    Except BookFault (Loop.Step (Matching s) (Matching s)) :=
  if m.incoming.isValid && !m.opposite.empty then
    match m.opposite.top with
    | none => .error .emptyOptional
    | some best =>
        if !priceCrosses m.incoming best then .ok (.exit m)
        else
          let opposite := m.opposite.pop.2
          let fill := (tradeVolume m.incoming best).toUInt32
          let incoming := { m.incoming with volume := m.incoming.volume - fill }
          let best := { best with volume := best.volume - fill }
          let opposite := if best.isValid then (opposite.push best).2 else opposite
          .ok (.next ⟨incoming, opposite⟩)
  else .ok (.exit m)

def matchLoop {s : Side} (m : Matching s) : Except BookFault (Matching s) :=
  Loop.run .unfinishedLoop matchBody (m.opposite.orders.length + 1) m

def matchOrder (b : OrderBook) (incoming : Order) : Except BookFault (ExecFlags × OrderBook) :=
  if !incoming.isValid then .ok (.rejected, b)
  else if !(b.queue incoming.side.opposite).isValid then .error .assertion
  else
    match matchLoop ⟨incoming, b.queue incoming.side.opposite⟩ with
    | .error e => .error e
    | .ok m =>
        let b := b.setQueue incoming.side.opposite m.opposite
        if m.incoming.volume ≤ 0 then .ok (.fullyFilled, b)
        else if !(b.queue incoming.side).isValid then .error .assertion
        else
          .ok (.partiallyFilled,
            b.setQueue incoming.side ((b.queue incoming.side).push m.incoming).2)

def newOrder (b : OrderBook) (order : Order) : Except BookFault (ExecFlags × OrderBook) :=
  if !order.isValid then .ok (.rejected, b)
  else if b.canCross order then
    match b.matchOrder order with
    | .error e => .error e
    | .ok (flags, b) =>
        if flags.hasFlag .rejected then .ok (.rejected, b)
        else .ok (flags ||| .accepted, b)
  else if !(b.queue order.side).isValid then .error .assertion
  else
    let b := b.setQueue order.side ((b.queue order.side).push order).2
    .ok (.none ||| .accepted, b.addVolume order.priceQ4 order.side order.volume)

/-- The branch of `cancelOrder` for the side whose queue found `order`. -/
def cancelOn (b : OrderBook) (s : Side) (order : Order) (orderId : UInt64) :
    Except BookFault (ExecFlags × OrderBook) :=
  match (b.queue s).remove orderId with
  | .error e => .error e
  | .ok (removed, q) =>
      if !removed then .ok (.rejected, b)
      else .ok (.cancelled, (b.setQueue s q).subVolume order.priceQ4 s order.volume)

def cancelOrder (b : OrderBook) (orderId : UInt64) : Except BookFault (ExecFlags × OrderBook) :=
  match b.buyOrders.find orderId with
  | .error e => .error e
  | .ok (some order) => b.cancelOn .buy order orderId
  | .ok none =>
      match b.sellOrders.find orderId with
      | .error e => .error e
      | .ok (some order) => b.cancelOn .sell order orderId
      | .ok none => .ok (.rejected, b)

/-- The order `modifyOrder` submits in place of `order`. -/
def replacement (order : Order) (newPriceQ4 newVolume : UInt32) (sequencer : GlobalSequencer)
    (unset : UnsetFlags) : Order × GlobalSequencer :=
  Order.new (Order.unpack order.idNs).id.toInt32 newPriceQ4 newVolume (order.side = .buy)
    (Order.clientView order.client) sequencer unset

def modifyOrder (b : OrderBook) (orderId : UInt64) (newPriceQ4 newVolume : UInt32)
    (sequencer : GlobalSequencer) (unset : UnsetFlags) :
    Except BookFault (ExecFlags × OrderBook × GlobalSequencer) :=
  match b.buyOrders.find orderId with
  | .error e => .error e
  | .ok none => .ok (.rejected, b, sequencer)
  | .ok (some order) =>
      match b.cancelOrder orderId with
      | .error e => .error e
      | .ok (flags, b) =>
          if flags.hasFlag .rejected then .ok (flags, b, sequencer)
          else
            let (newOrder, sequencer) := replacement order newPriceQ4 newVolume sequencer unset
            match b.newOrder newOrder with
            | .error e => .error e
            | .ok (newFlags, b) => .ok (flags ||| newFlags, b, sequencer)

def getTopOfBook (b : OrderBook) : TopOfBook := ⟨b.buyOrders.top, b.sellOrders.top⟩

def getOrder (b : OrderBook) (orderId : UInt64) : Except BookFault (Option Order) :=
  match b.buyOrders.find orderId with
  | .error e => .error e
  | .ok (some order) => .ok (some order)
  | .ok none => b.sellOrders.find orderId

/-- The resting orders of one side, best first. -/
def orders (b : OrderBook) (s : Side) : List Order := (b.queue s).orders

section Queues

variable (b : OrderBook) (s : Side) (q : PriorityQueueAdapter (comparator s))

@[simp] theorem queue_new : new.queue s = .new := by cases s <;> rfl

@[simp] theorem orders_new : new.orders s = [] := by simp [orders]

@[simp] theorem queue_setQueue : (b.setQueue s q).queue s = q := by cases s <;> rfl

@[simp] theorem queue_setQueue_opposite (q : PriorityQueueAdapter (comparator s.opposite)) :
    (b.setQueue s.opposite q).queue s = b.queue s := by cases s <;> rfl

@[simp] theorem queue_opposite_setQueue :
    (b.setQueue s q).queue s.opposite = b.queue s.opposite := by cases s <;> rfl

@[simp] theorem queue_addVolume (p v : UInt32) (s' : Side) :
    (b.addVolume p s' v).queue s = b.queue s := by cases s <;> rfl

@[simp] theorem queue_subVolume (p v : UInt32) (s' : Side) :
    (b.subVolume p s' v).queue s = b.queue s := by cases s <;> rfl

end Queues

end OrderBook

end FastLittleMarket
