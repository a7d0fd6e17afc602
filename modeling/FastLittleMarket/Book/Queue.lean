import Mathlib.Logic.Function.Basic
import FastLittleMarket.Book.Order

/-!
The price-ordered queue of one side and its index from order ids to nodes.

An index entry is an iterator: dereferencing one whose node was erased is a
fault, not a missing result. The key that `pop` erases passes through a signed
32-bit local before it is widened again.
-/

namespace FastLittleMarket

/-- The ways an order-book call ends without a defined result. -/
inductive BookFault where
  | assertion
  | erasedIterator
  | emptyOptional
  | unfinishedLoop
  deriving DecidableEq, Repr

structure PriorityQueueAdapter (C : Comparator Order) where
  priceSorted : OrderedBag C
  idToIter : UInt64 → Option Nat

/-- `int id = id_ns_`, passed on as a `uint64_t` key. -/
def intKey (idNs : UInt64) : UInt64 := idNs.toUInt32.toInt32.toInt64.toUInt64

namespace PriorityQueueAdapter

variable {C : Comparator Order}

def new : PriorityQueueAdapter C where
  priceSorted := OrderedBag.empty
  idToIter _ := none

instance : Inhabited (PriorityQueueAdapter C) := ⟨new⟩

/-- The resting orders, first in the comparator's order first. -/
def orders (q : PriorityQueueAdapter C) : List Order := q.priceSorted.values

def empty (q : PriorityQueueAdapter C) : Bool := q.priceSorted.nodes.isEmpty

def top (q : PriorityQueueAdapter C) : Option Order :=
  if q.empty then none else q.priceSorted.begin?.map Prod.snd

def push (q : PriorityQueueAdapter C) (order : Order) : Bool × PriorityQueueAdapter C :=
  if !order.isValid then (false, q)
  else
    (true,
      { priceSorted := q.priceSorted.insert order
        idToIter := Function.update q.idToIter order.idNs (some q.priceSorted.fresh) })

def find (q : PriorityQueueAdapter C) (orderId : UInt64) : Except BookFault (Option Order) :=
  match q.idToIter orderId with
  | none => .ok none
  | some it =>
      match q.priceSorted.deref it with
      | none => .error .erasedIterator
      | some order => .ok (some order)

def pop (q : PriorityQueueAdapter C) : Bool × PriorityQueueAdapter C :=
  match q.priceSorted.begin? with
  | none => (false, q)
  | some (it, first) =>
      (true,
        { priceSorted := q.priceSorted.erase it
          idToIter := Function.update q.idToIter (intKey first.idNs) none })

def remove (q : PriorityQueueAdapter C) (orderId : UInt64) :
    Except BookFault (Bool × PriorityQueueAdapter C) :=
  match q.idToIter orderId with
  | none => .ok (false, q)
  | some it =>
      match q.priceSorted.deref it with
      | none => .error .erasedIterator
      | some _ =>
          .ok (true,
            { priceSorted := q.priceSorted.erase it
              idToIter := Function.update q.idToIter orderId none })

def isValid (q : PriorityQueueAdapter C) : Bool := q.orders.all Order.isValid

@[simp] theorem orders_new : (new : PriorityQueueAdapter C).orders = [] := rfl

theorem empty_iff {q : PriorityQueueAdapter C} : q.empty = true ↔ q.orders = [] := by
  simp [empty, orders, OrderedBag.values]

theorem top_eq_head? (q : PriorityQueueAdapter C) : q.top = q.orders.head? := by
  unfold top empty orders OrderedBag.values OrderedBag.begin?
  cases q.priceSorted.nodes <;> simp

/-- What the top of a queue says: it rests there, and none comes before it. -/
theorem top_spec {q : PriorityQueueAdapter C} {o : Order} (h : q.top = some o) :
    ∃ rest, q.orders = o :: rest ∧ ∀ r ∈ q.orders, C.lt r o = false := by
  rw [top_eq_head?] at h
  obtain ⟨rest, hrest⟩ := List.head?_eq_some_iff.mp h
  refine ⟨rest, hrest, ?_⟩
  intro r hr
  have sorted := q.priceSorted.values_sorted
  change q.orders.Pairwise _ at sorted
  rw [hrest] at sorted hr
  rcases List.mem_cons.mp hr with rfl | hr
  · exact C.irrefl _
  · exact (List.pairwise_cons.mp sorted).1 r hr

theorem isValid_iff {q : PriorityQueueAdapter C} :
    q.isValid = true ↔ ∀ o ∈ q.orders, o.isValid = true := by
  simp [isValid]

theorem orders_push (q : PriorityQueueAdapter C) {o : Order} (h : o.isValid = true) :
    (q.push o).2.orders = q.orders.orderedInsert (fun m n => C.lt m n = true) o := by
  simp only [push, h, Bool.not_true, Bool.false_eq_true, ite_false, orders]
  exact q.priceSorted.values_insert o

theorem orders_push_perm (q : PriorityQueueAdapter C) {o : Order} (h : o.isValid = true) :
    (q.push o).2.orders.Perm (o :: q.orders) := by
  rw [orders_push q h]
  exact List.perm_orderedInsert _ o q.orders

theorem priceSorted_push (q : PriorityQueueAdapter C) {o : Order} (h : o.isValid = true) :
    (q.push o).2.priceSorted = q.priceSorted.insert o := by
  simp [push, h]

theorem idToIter_push (q : PriorityQueueAdapter C) {o : Order} (h : o.isValid = true) :
    (q.push o).2.idToIter =
      Function.update q.idToIter o.idNs (some q.priceSorted.fresh) := by
  simp [push, h]

theorem orders_pop {q : PriorityQueueAdapter C} {o : Order} {rest : List Order}
    (h : q.orders = o :: rest) : q.pop.2.orders = rest := by
  unfold pop
  cases hb : q.priceSorted.begin? with
  | none =>
      have none_rest := OrderedBag.begin?_eq_none.mp hb
      simp [orders, none_rest] at h
  | some n =>
      have split := OrderedBag.values_erase_begin hb
      change q.orders = _ at split
      rw [h] at split
      exact (List.cons.inj split).2.symm

theorem find_eq_some {q : PriorityQueueAdapter C} {id : UInt64} {o : Order} :
    q.find id = .ok (some o) ↔
      ∃ it, q.idToIter id = some it ∧ q.priceSorted.deref it = some o := by
  unfold find
  cases hi : q.idToIter id with
  | none => simp
  | some it =>
      cases hd : q.priceSorted.deref it <;> simp [hd]

theorem find_eq_none {q : PriorityQueueAdapter C} {id : UInt64} :
    q.find id = .ok none ↔ q.idToIter id = none := by
  unfold find
  cases hi : q.idToIter id with
  | none => simp
  | some it =>
      cases hd : q.priceSorted.deref it <;> simp [hd]

theorem mem_orders_of_find {q : PriorityQueueAdapter C} {id : UInt64} {o : Order}
    (h : q.find id = .ok (some o)) : o ∈ q.orders := by
  obtain ⟨it, -, live⟩ := find_eq_some.mp h
  exact OrderedBag.mem_values_of_deref live

theorem remove_eq_true {q q' : PriorityQueueAdapter C} {id : UInt64} :
    q.remove id = .ok (true, q') ↔
      ∃ it o, q.idToIter id = some it ∧ q.priceSorted.deref it = some o ∧
        q' = ⟨q.priceSorted.erase it, Function.update q.idToIter id none⟩ := by
  unfold remove
  cases hi : q.idToIter id with
  | none => simp
  | some it =>
      cases hd : q.priceSorted.deref it <;> simp [hd, eq_comm]

/-- A lookup that finds an order makes the removal of its id succeed, and that
removal takes exactly this one order out. -/
theorem remove_of_find {q : PriorityQueueAdapter C} {id : UInt64} {o : Order}
    (h : q.find id = .ok (some o)) :
    ∃ q', q.remove id = .ok (true, q') ∧ q.orders.Perm (o :: q'.orders) := by
  obtain ⟨it, hi, hd⟩ := find_eq_some.mp h
  let q' : PriorityQueueAdapter C :=
    { priceSorted := q.priceSorted.erase it
      idToIter := Function.update q.idToIter id none }
  exact ⟨q', by simp [remove, hi, hd, q'], OrderedBag.values_erase_perm hd⟩

end PriorityQueueAdapter

end FastLittleMarket
