import FastLittleMarket.Book.OrderBook

/-!
What the matching loop does, as a relation without budget.

`Sweeps m ms m'` lists the rounds taken from `m` to the exit state `m'`: whole
contra orders are consumed from the front of the queue, at most one is reduced,
and the loop stops at an exhausted incoming order, an empty queue or a first
order that does not cross. Every later fact about matching is an induction on
this relation.
-/

namespace FastLittleMarket.OrderBook

variable {s : Side}

/-- The loop state after the first contra order `r` is filled completely. -/
def Matching.consume (m : Matching s) (r : Order) : Matching s where
  incoming := { m.incoming with volume := m.incoming.volume - r.volume }
  opposite := m.opposite.pop.2

/-- The loop state after the first contra order `r` absorbs the incoming one. -/
def Matching.reduce (m : Matching s) (r : Order) : Matching s where
  incoming := { m.incoming with volume := 0 }
  opposite := (m.opposite.pop.2.push { r with volume := r.volume - m.incoming.volume }).2

inductive Sweeps : Matching s → List (Matching s) → Matching s → Prop
  | stop {m : Matching s}
      (h : m.incoming.volume = 0 ∨
        ∀ r ∈ m.opposite.orders.head?, priceCrosses m.incoming r = false) :
      Sweeps m [] m
  | consume {m m' : Matching s} {ms : List (Matching s)} {r : Order} {rest : List Order}
      (first : m.opposite.orders = r :: rest) (crosses : priceCrosses m.incoming r = true)
      (left : m.incoming.volume ≠ 0) (fits : r.volume ≤ m.incoming.volume)
      (next : Sweeps (m.consume r) ms m') :
      Sweeps m (m :: ms) m'
  | reduce {m : Matching s} {r : Order} {rest : List Order}
      (first : m.opposite.orders = r :: rest) (crosses : priceCrosses m.incoming r = true)
      (left : m.incoming.volume ≠ 0) (exceeds : m.incoming.volume < r.volume) :
      Sweeps m [m] (m.reduce r)

@[simp] theorem tradeVolume_toUInt32 (incoming best : Order) :
    (tradeVolume incoming best).toUInt32 = min incoming.volume best.volume := by
  simp [tradeVolume]

theorem min_of_le {a b : UInt32} (h : b ≤ a) : min a b = b := by
  simp only [Min.min]
  split
  · exact UInt32.le_antisymm ‹_› h
  · rfl

theorem min_of_lt {a b : UInt32} (h : a < b) : min a b = a := by
  simp only [Min.min]
  rw [if_pos (UInt32.le_of_lt h)]

theorem sub_ne_zero_of_lt {a b : UInt32} (h : a < b) : b - a ≠ 0 := by
  intro hz
  have hsub := UInt32.toNat_sub_of_le _ _ (UInt32.le_of_lt h)
  have hlt := UInt32.lt_iff_toNat_lt.mp h
  rw [hz] at hsub
  simp at hsub
  omega

theorem orders_consume {m : Matching s} {r : Order} {rest : List Order}
    (first : m.opposite.orders = r :: rest) : (m.consume r).opposite.orders = rest :=
  PriorityQueueAdapter.orders_pop first

theorem matchBody_stop {m : Matching s}
    (h : m.incoming.volume = 0 ∨
      ∀ r ∈ m.opposite.orders.head?, priceCrosses m.incoming r = false) :
    matchBody m = .ok (.exit m) := by
  unfold matchBody
  rcases h with h | h
  · have invalid : ¬ m.incoming.isValid = true := fun hv => (Order.isValid_iff.mp hv).1 h
    simp [invalid]
  · split
    · rw [PriorityQueueAdapter.top_eq_head?]
      rename_i hne
      cases hh : m.opposite.orders.head? with
      | none =>
          have hempty := PriorityQueueAdapter.empty_iff.mpr (List.head?_eq_none_iff.mp hh)
          simp [hempty] at hne
      | some r => simp [h r hh]
    · rfl

theorem matchBody_consume {m : Matching s} {r : Order} {rest : List Order}
    (priced : m.incoming.Priced) (valid : r.isValid = true)
    (first : m.opposite.orders = r :: rest) (crosses : priceCrosses m.incoming r = true)
    (left : m.incoming.volume ≠ 0) (fits : r.volume ≤ m.incoming.volume) :
    matchBody m = .ok (.next (m.consume r)) := by
  have active : m.incoming.isValid = true := Order.isValid_iff_priced.mpr ⟨left, priced⟩
  have nonempty : m.opposite.empty = false := by
    rw [Bool.eq_false_iff, ne_eq, PriorityQueueAdapter.empty_iff, first]
    exact List.cons_ne_nil _ _
  have gone : ({ r with volume := r.volume - r.volume } : Order).isValid = false := by
    rw [(Order.isValid_iff_priced.mp valid).2.isValid_withVolume]
    simp
  simp only [matchBody, active, nonempty, PriorityQueueAdapter.top_eq_head?, first, crosses,
    tradeVolume_toUInt32, min_of_le fits, List.head?_cons, Bool.not_false, Bool.and_self,
    ite_true, Bool.not_true, Bool.false_eq_true, ite_false, gone]
  rfl

theorem matchBody_reduce {m : Matching s} {r : Order} {rest : List Order}
    (priced : m.incoming.Priced) (valid : r.isValid = true)
    (first : m.opposite.orders = r :: rest) (crosses : priceCrosses m.incoming r = true)
    (left : m.incoming.volume ≠ 0) (exceeds : m.incoming.volume < r.volume) :
    matchBody m = .ok (.next (m.reduce r)) := by
  have active : m.incoming.isValid = true := Order.isValid_iff_priced.mpr ⟨left, priced⟩
  have nonempty : m.opposite.empty = false := by
    rw [Bool.eq_false_iff, ne_eq, PriorityQueueAdapter.empty_iff, first]
    exact List.cons_ne_nil _ _
  have remains :
      ({ r with volume := r.volume - m.incoming.volume } : Order).isValid = true := by
    rw [(Order.isValid_iff_priced.mp valid).2.isValid_withVolume, decide_eq_true_eq]
    exact sub_ne_zero_of_lt exceeds
  simp only [matchBody, active, nonempty, PriorityQueueAdapter.top_eq_head?, first, crosses,
    tradeVolume_toUInt32, min_of_lt exceeds, List.head?_cons, Bool.not_false, Bool.and_self,
    ite_true, Bool.not_true, Bool.false_eq_true, ite_false, remains, UInt32.sub_self]
  rfl

/-- The loop runs to an exit within its budget, and its rounds are a sweep. -/
theorem matchLoop_sweeps {m : Matching s} (priced : m.incoming.Priced)
    (valid : ∀ r ∈ m.opposite.orders, r.isValid = true) {fuel : Nat}
    (enough : m.opposite.orders.length < fuel) :
    ∃ m', Loop.run .unfinishedLoop matchBody fuel m = .ok m' ∧
      Sweeps m (Loop.rounds matchBody fuel m) m' := by
  induction fuel generalizing m with
  | zero => exact absurd enough (Nat.not_lt_zero _)
  | succ fuel ih =>
      by_cases h : m.incoming.volume = 0 ∨
          ∀ r ∈ m.opposite.orders.head?, priceCrosses m.incoming r = false
      · refine ⟨m, ?_, ?_⟩
        · simp only [Loop.run, matchBody_stop h]
        · simp only [Loop.rounds, matchBody_stop h]
          exact .stop h
      · rw [not_or] at h
        obtain ⟨left, h⟩ := h
        push Not at h
        obtain ⟨r, hr, crosses⟩ := h
        have crosses : priceCrosses m.incoming r = true := by simpa using crosses
        obtain ⟨rest, first⟩ := List.head?_eq_some_iff.mp hr
        have hvalid := valid r (by simp [first])
        by_cases fits : r.volume ≤ m.incoming.volume
        · have body := matchBody_consume priced hvalid first crosses left fits
          have tail := orders_consume first
          obtain ⟨m', hrun, hsweep⟩ := ih (m := m.consume r) priced
            (fun x hx => valid x (by rw [tail] at hx; simp [first, hx]))
            (by rw [tail]; rw [first, List.length_cons] at enough; omega)
          refine ⟨m', ?_, ?_⟩
          · simpa only [Loop.run, body] using hrun
          · simp only [Loop.rounds, body]
            exact .consume first crosses left fits hsweep
        · have exceeds : m.incoming.volume < r.volume := UInt32.not_le.mp fits
          have body := matchBody_reduce priced hvalid first crosses left exceeds
          have stopped : matchBody (m.reduce r) = .ok (.exit (m.reduce r)) :=
            matchBody_stop (.inl rfl)
          rw [first, List.length_cons] at enough
          obtain ⟨fuel, rfl⟩ := Nat.exists_eq_succ_of_ne_zero (show fuel ≠ 0 by omega)
          refine ⟨m.reduce r, ?_, ?_⟩
          · simp only [Loop.run, body, stopped]
          · simp only [Loop.rounds, body, stopped]
            exact .reduce first crosses left exceeds

/-- The rounds of the loop `matchOrder` runs on `m`. -/
def matchRounds (m : Matching s) : List (Matching s) :=
  Loop.rounds matchBody (m.opposite.orders.length + 1) m

theorem matchLoop_spec {m : Matching s} (priced : m.incoming.Priced)
    (valid : ∀ r ∈ m.opposite.orders, r.isValid = true) :
    ∃ m', matchLoop m = .ok m' ∧ Sweeps m (matchRounds m) m' :=
  matchLoop_sweeps priced valid (Nat.lt_succ_self _)

/-- `r'` is `r` with some of its volume gone and some left. -/
def Shrunk (r r' : Order) : Prop :=
  ∃ v, v ≠ 0 ∧ v ≤ r.volume ∧ r' = { r with volume := v }

theorem Shrunk.refl {r : Order} (h : r.volume ≠ 0) : Shrunk r r :=
  ⟨r.volume, h, UInt32.le_refl _, rfl⟩

theorem Shrunk.isValid {r r' : Order} (h : Shrunk r r') (valid : r.isValid = true) :
    r'.isValid = true := by
  obtain ⟨v, hv, -, rfl⟩ := h
  rw [(Order.isValid_iff_priced.mp valid).2.isValid_withVolume]
  simpa using hv

theorem shrunk_sub {r : Order} {v : UInt32} (h : v < r.volume) :
    Shrunk r { r with volume := r.volume - v } := by
  refine ⟨r.volume - v, sub_ne_zero_of_lt h, ?_, rfl⟩
  rw [UInt32.le_iff_toNat_le, UInt32.toNat_sub_of_le _ _ (UInt32.le_of_lt h)]
  exact Nat.sub_le _ _

/-- A reduced contra order goes back behind the remaining ones that tie with it. -/
theorem orders_reduce {m : Matching s} {r : Order} {rest : List Order}
    (valid : r.isValid = true) (first : m.opposite.orders = r :: rest)
    (exceeds : m.incoming.volume < r.volume) :
    (m.reduce r).opposite.orders =
      rest.orderedInsert (fun a b => (comparator s).lt a b = true)
        { r with volume := r.volume - m.incoming.volume } := by
  have remains := (shrunk_sub exceeds).isValid valid
  have pushed := PriorityQueueAdapter.orders_push m.opposite.pop.2 remains
  rwa [PriorityQueueAdapter.orders_pop first] at pushed

theorem orders_reduce_perm {m : Matching s} {r : Order} {rest : List Order}
    (valid : r.isValid = true) (first : m.opposite.orders = r :: rest)
    (exceeds : m.incoming.volume < r.volume) :
    (m.reduce r).opposite.orders.Perm
      ({ r with volume := r.volume - m.incoming.volume } :: rest) := by
  rw [orders_reduce valid first exceeds]
  exact List.perm_orderedInsert _ _ rest

section Sweeps

variable {m m' : Matching s} {ms : List (Matching s)}

theorem Sweeps.incoming_eq (h : Sweeps m ms m') :
    m'.incoming = { m.incoming with volume := m'.incoming.volume } := by
  induction h with
  | stop h => rfl
  | consume first crosses left fits next ih => exact ih
  | reduce first crosses left exceeds => rfl

theorem Sweeps.idNs_eq (h : Sweeps m ms m') : m'.incoming.idNs = m.incoming.idNs := by
  rw [h.incoming_eq]

/-- What the loop leaves of a valid incoming order is valid. -/
theorem Sweeps.residual_isValid (h : Sweeps m ms m') (valid : m.incoming.isValid = true)
    (left : m'.incoming.volume ≠ 0) : m'.incoming.isValid = true := by
  rw [h.incoming_eq]
  exact Order.isValid_iff_priced.mpr ⟨left, (Order.isValid_iff_priced.mp valid).2⟩

/-- The loop leaves exhausted, or in front of nothing that crosses. -/
theorem Sweeps.exit (h : Sweeps m ms m') :
    m'.incoming.volume = 0 ∨
      ∀ r ∈ m'.opposite.orders.head?, priceCrosses m'.incoming r = false := by
  induction h with
  | stop h => exact h
  | consume first crosses left fits next ih => exact ih
  | reduce first crosses left exceeds => exact .inl rfl

theorem Sweeps.contra (h : Sweeps m ms m')
    (valid : ∀ r ∈ m.opposite.orders, r.isValid = true) :
    ∀ r' ∈ m'.opposite.orders, ∃ r ∈ m.opposite.orders, Shrunk r r' := by
  induction h with
  | stop h => exact fun r hr => ⟨r, hr, .refl (Order.isValid_iff.mp (valid r hr)).1⟩
  | consume first crosses left fits next ih =>
      intro r' hr'
      have tail := orders_consume first
      obtain ⟨r, hr, shrunk⟩ := ih (fun x hx => valid x (by
        rw [tail] at hx
        simp [first, hx])) r' hr'
      rw [tail] at hr
      exact ⟨r, by simp [first, hr], shrunk⟩
  | @reduce m r rest first crosses left exceeds =>
      intro r' hr'
      have hvalid := valid r (by simp [first])
      rcases List.mem_cons.mp ((orders_reduce_perm hvalid first exceeds).mem_iff.mp hr') with
        rfl | hr'
      · exact ⟨r, by simp [first], shrunk_sub exceeds⟩
      · have hmem : r' ∈ m.opposite.orders := by simp [first, hr']
        exact ⟨r', hmem, .refl (Order.isValid_iff.mp (valid r' hmem)).1⟩

theorem Sweeps.valid (h : Sweeps m ms m')
    (valid : ∀ r ∈ m.opposite.orders, r.isValid = true) :
    ∀ r' ∈ m'.opposite.orders, r'.isValid = true := by
  intro r' hr'
  obtain ⟨r, hr, shrunk⟩ := h.contra valid r' hr'
  exact shrunk.isValid (valid r hr)

end Sweeps

end FastLittleMarket.OrderBook
