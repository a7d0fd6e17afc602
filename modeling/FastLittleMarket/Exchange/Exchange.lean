import FastLittleMarket.Book.Steps
import FastLittleMarket.Exchange.ThreadPool

/-!
The exchange: requests for a symbol become tasks on the symbol's shard, and the worker
of the shard applies them to the symbol's book.

The hash of a symbol is a parameter. A run goes on only while no task faults, as for a
single book.
-/

namespace FastLittleMarket

abbrev Symbol := List UInt8

/-- `shards_`: the books of each shard. -/
abbrev Shards := Shard → Symbol → Option OrderBook

namespace Exchange

/-- The closures that `newOrder` and `cancelOrder` enqueue, with what they capture. -/
inductive Task where
  | newOrder (symbol : Symbol) (order : Order) (shard : Shard)
  | cancelOrder (symbol : Symbol) (orderId : UInt64) (shard : Shard)
  deriving DecidableEq

/-- A call of one of the two functions. -/
inductive Call where
  | newOrder (symbol : Symbol) (order : Order)
  | cancelOrder (symbol : Symbol) (orderId : UInt64)

section Calls

variable (hash : Symbol → UInt64)

def getShard (symbol : Symbol) : Shard := Fin.ofNat numShards (hash symbol).toNat

/-- The arguments of the call of `enqueue`. -/
def newOrder (symbol : Symbol) (order : Order) : Task × Shard :=
  let shard := getShard hash symbol
  (.newOrder symbol order shard, shard)

def cancelOrder (symbol : Symbol) (orderId : UInt64) : Task × Shard :=
  let shard := getShard hash symbol
  (.cancelOrder symbol orderId shard, shard)

def enqueues : Call → Task × Shard
  | .newOrder symbol order => newOrder hash symbol order
  | .cancelOrder symbol orderId => cancelOrder hash symbol orderId

end Calls

def setBook (shards : Shards) (shard : Shard) (symbol : Symbol) (book : OrderBook) : Shards :=
  Function.update shards shard (Function.update (shards shard) symbol (some book))

def Task.run (task : Task) (shards : Shards) : Except BookFault Shards :=
  match task with
  | .newOrder symbol order shard =>
      let book := (shards shard symbol).getD .new
      match book.newOrder order with
      | .error e => .error e
      | .ok (_, book) => .ok (setBook shards shard symbol book)
  | .cancelOrder symbol orderId shard =>
      match shards shard symbol with
      | none => .ok shards
      | some book =>
          match book.cancelOrder orderId with
          | .error e => .error e
          | .ok (_, book) => .ok (setBook shards shard symbol book)

namespace Task

def symbol : Task → Symbol
  | .newOrder symbol .. => symbol
  | .cancelOrder symbol .. => symbol

def shard : Task → Shard
  | .newOrder _ _ shard => shard
  | .cancelOrder _ _ shard => shard

/-- What the task asks of the book. -/
def request : Task → Request
  | .newOrder _ order _ => .newOrder order
  | .cancelOrder _ orderId _ => .cancelOrder orderId

end Task

variable {P : Type} [DecidableEq P] {Q : ConcurrentQueue P (Enqueued P Task)}

def new (Q : ConcurrentQueue P (Enqueued P Task)) : ThreadPool Q Shards :=
  .new Q fun _ _ => none

/-- The step of the pool a call takes, or a step of the pool itself. -/
inductive Step (hash : Symbol → UInt64) :
    ThreadPool Q Shards → Action P Task → ThreadPool Q Shards → Prop
  | call {s s' : ThreadPool Q Shards} (client : P) (call : Call)
      (step : ThreadPool.Step Task.run s
        (.enqueue client (enqueues hash call).2 (enqueues hash call).1) s') :
      Step hash s (.enqueue client (enqueues hash call).2 (enqueues hash call).1) s'
  | pool {s s' : ThreadPool Q Shards} {a : Action P Task}
      (internal : ∀ client shard task, a ≠ .enqueue client shard task)
      (step : ThreadPool.Step Task.run s a s') : Step hash s a s'

abbrev ExchangeRun (hash : Symbol → UInt64) (ts : List (ThreadPool.PoolStep Q Shards))
    (s : ThreadPool Q Shards) : Prop :=
  Run (Step hash) (new Q) ts s

variable {hash : Symbol → UInt64} {ts : List (ThreadPool.PoolStep Q Shards)}
  {s s' : ThreadPool Q Shards} {a : Action P Task}

theorem Step.toPool (step : Step hash s a s') : ThreadPool.Step Task.run s a s' := by
  cases step with
  | call client call step => exact step
  | pool internal step => exact step

theorem ExchangeRun.toPool (run : ExchangeRun hash ts s) :
    ThreadPool.PoolRun Task.run (fun _ _ => none) ts s := by
  induction run with
  | start => exact .start
  | snoc run taken ih => exact ih.snoc taken.toPool

/-- The task stands on the shard of its symbol. -/
def Routed (hash : Symbol → UInt64) (shard : Shard) (task : Task) : Prop :=
  shard = getShard hash task.symbol ∧ task.shard = getShard hash task.symbol

theorem Step.routed {client : P} {shard : Shard} {task : Task}
    (step : Step hash s (.enqueue client shard task) s') : Routed hash shard task := by
  generalize ha : Action.enqueue client shard task = a at step
  cases step with
  | call client' call step =>
      cases ha
      cases call <;> exact ⟨rfl, rfl⟩
  | pool internal step => exact absurd ha.symm (internal _ _ _)

end Exchange

end FastLittleMarket
