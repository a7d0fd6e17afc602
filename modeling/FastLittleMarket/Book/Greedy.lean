import Mathlib.Algebra.GroupWithZero.Nat
import Mathlib.Algebra.BigOperators.Group.List.Basic
import Mathlib.Data.List.ReduceOption
import FastLittleMarket.Book.WellFormed

/-!
Submission refines a greedy reference matcher given in closed form: a prefix of
the contra side, as long as prices cross, is consumed in order until the
incoming volume is used up. Volumes are natural numbers here, so the statement
covers fills of 2^31 and more.
-/

namespace FastLittleMarket

def totalVolume (rs : List Order) : Nat := (rs.map fun r => r.volume.toNat).sum

@[simp] theorem totalVolume_nil : totalVolume [] = 0 := rfl

@[simp] theorem totalVolume_cons (r : Order) (rs : List Order) :
    totalVolume (r :: rs) = r.volume.toNat + totalVolume rs := by
  simp [totalVolume]

theorem totalVolume_perm {rs rs' : List Order} (h : rs.Perm rs') :
    totalVolume rs = totalVolume rs' :=
  (h.map _).sum_eq

section Reference

variable (volume : Nat) (crosses : Order → Bool)

/-- What the order at position `i` loses to an incoming `volume`. -/
def greedyFill (rs : List Order) (i : Nat) (r : Order) : Nat :=
  if i < (rs.takeWhile crosses).length then
    min r.volume.toNat (volume - totalVolume (rs.take i))
  else 0

def afterFill (r : Order) (fill : Nat) : Option Order :=
  if r.volume.toNat ≤ fill then none
  else some { r with volume := r.volume - UInt32.ofNat fill }

def contraAfter (rs : List Order) : List Order :=
  (rs.mapIdx fun i r => afterFill r (greedyFill volume crosses rs i r)).reduceOption

def greedyTraded (rs : List Order) : Nat := min volume (totalVolume (rs.takeWhile crosses))

variable {volume crosses}

theorem afterFill_zero {r : Order} (h : r.volume ≠ 0) : afterFill r 0 = some r := by
  have pos : ¬ r.volume.toNat ≤ 0 := Nat.not_le_of_lt (toNat_pos h)
  have keeps : r.volume - UInt32.ofNat 0 = r.volume := by simp
  simp only [afterFill, pos, ite_false, keeps]

theorem reduceOption_afterFill_zero {rs : List Order} (h : ∀ r ∈ rs, r.volume ≠ 0)
    {f : Nat → Order → Nat} (none_taken : ∀ i r, f i r = 0) :
    (rs.mapIdx fun i r => afterFill r (f i r)).reduceOption = rs := by
  induction rs generalizing f with
  | nil => rfl
  | cons r rs ih =>
      rw [List.mapIdx_cons, none_taken, afterFill_zero (h r (by simp)),
        List.reduceOption_cons_of_some]
      rw [ih (fun x hx => h x (by simp [hx])) (fun i => none_taken (i + 1))]

theorem takeWhile_of_apart {rs : List Order} (apart : ∀ r ∈ rs.head?, crosses r = false) :
    rs.takeWhile crosses = [] := by
  cases rs with
  | nil => rfl
  | cons x xs => simp [apart x (by simp)]

theorem contraAfter_of_apart {rs : List Order} (h : ∀ r ∈ rs, r.volume ≠ 0)
    (apart : ∀ r ∈ rs.head?, crosses r = false) : contraAfter volume crosses rs = rs := by
  apply reduceOption_afterFill_zero h
  intro i r
  simp [greedyFill, takeWhile_of_apart apart]

theorem contraAfter_zero {rs : List Order} (h : ∀ r ∈ rs, r.volume ≠ 0) :
    contraAfter 0 crosses rs = rs := by
  apply reduceOption_afterFill_zero h
  intro i r
  simp [greedyFill]

/-- A crossing first order passes what it leaves of the volume on to the rest. -/
theorem greedyFill_cons_succ {r : Order} (rs : List Order) (cross : crosses r = true)
    (i : Nat) (x : Order) :
    greedyFill volume crosses (r :: rs) (i + 1) x =
      greedyFill (volume - r.volume.toNat) crosses rs i x := by
  simp [greedyFill, cross, Nat.sub_sub]

theorem contraAfter_consume {r : Order} {rs : List Order} (cross : crosses r = true)
    (fits : r.volume.toNat ≤ volume) :
    contraAfter volume crosses (r :: rs) =
      contraAfter (volume - r.volume.toNat) crosses rs := by
  have gone : afterFill r (greedyFill volume crosses (r :: rs) 0 r) = none := by
    simp [greedyFill, cross, afterFill, fits]
  simp only [contraAfter, List.mapIdx_cons, gone, greedyFill_cons_succ rs cross,
    List.reduceOption_cons_of_none]

theorem contraAfter_reduce {r : Order} {rs : List Order} (cross : crosses r = true)
    (h : ∀ x ∈ rs, x.volume ≠ 0) (exceeds : volume < r.volume.toNat) :
    contraAfter volume crosses (r :: rs) =
      { r with volume := r.volume - UInt32.ofNat volume } :: rs := by
  have fill : greedyFill volume crosses (r :: rs) 0 r = volume := by
    simp [greedyFill, cross, Nat.min_eq_right (Nat.le_of_lt exceeds)]
  have head : afterFill r volume =
      some { r with volume := r.volume - UInt32.ofNat volume } := by
    simp [afterFill, exceeds]
  have spent : volume - r.volume.toNat = 0 := Nat.sub_eq_zero_of_le (Nat.le_of_lt exceeds)
  simp only [contraAfter, List.mapIdx_cons, fill, head, greedyFill_cons_succ rs cross, spent,
    List.reduceOption_cons_of_some]
  rw [reduceOption_afterFill_zero h]
  intro i x
  simp [greedyFill]

end Reference

namespace OrderBook

variable {s : Side}

theorem volumes_ne_zero {rs : List Order} (valid : ∀ r ∈ rs, r.isValid = true) :
    ∀ r ∈ rs, r.volume ≠ 0 :=
  fun r hr => (Order.isValid_iff.mp (valid r hr)).1

theorem Sweeps.greedy {m m' : Matching s} {ms : List (Matching s)} (h : Sweeps m ms m')
    (valid : ∀ r ∈ m.opposite.orders, r.isValid = true) :
    m'.incoming.volume.toNat = m.incoming.volume.toNat -
        totalVolume (m.opposite.orders.takeWhile (priceCrosses m.incoming)) ∧
      m'.opposite.orders.Perm
        (contraAfter m.incoming.volume.toNat (priceCrosses m.incoming) m.opposite.orders) := by
  induction h with
  | @stop m h =>
      have positive := volumes_ne_zero valid
      rcases h with h | h
      · simp [h, contraAfter_zero positive]
      · rw [contraAfter_of_apart positive h]
        simp [takeWhile_of_apart h]
  | @consume m m' ms r rest first crosses left fits next ih =>
      have tail := orders_consume first
      have volume : (m.consume r).incoming.volume.toNat =
          m.incoming.volume.toNat - r.volume.toNat := UInt32.toNat_sub_of_le _ _ fits
      have same : priceCrosses (m.consume r).incoming = priceCrosses m.incoming := rfl
      obtain ⟨hvol, perm⟩ := ih (fun x hx => valid x (by rw [tail] at hx; simp [first, hx]))
      rw [tail, volume, same] at hvol perm
      rw [first, contraAfter_consume crosses (UInt32.le_iff_toNat_le.mp fits)]
      refine ⟨?_, perm⟩
      rw [hvol, List.takeWhile_cons_of_pos crosses, totalVolume_cons, Nat.sub_sub]
  | @reduce m r rest first crosses left exceeds =>
      have lt := UInt32.lt_iff_toNat_lt.mp exceeds
      have hvalid := valid r (by simp [first])
      have perm := orders_reduce_perm hvalid first exceeds
      rw [first, contraAfter_reduce crosses
        (volumes_ne_zero fun x hx => valid x (by simp [first, hx])) lt]
      rw [UInt32.ofNat_toNat]
      refine ⟨?_, perm⟩
      rw [List.takeWhile_cons_of_pos crosses, totalVolume_cons]
      change UInt32.toNat 0 = _
      simp
      omega

/-- Every round but one that exhausts the incoming order takes an order out. -/
theorem Sweeps.length_le {m m' : Matching s} {ms : List (Matching s)} (h : Sweeps m ms m') :
    (m'.incoming.volume = 0 ∧ ms.length ≤ m.opposite.orders.length) ∨
      ms.length + m'.opposite.orders.length = m.opposite.orders.length := by
  induction h with
  | stop h => exact .inr (Nat.zero_add _)
  | consume first crosses left fits next ih =>
      rw [orders_consume first] at ih
      simp only [first, List.length_cons]
      rcases ih with ⟨exhausted, count⟩ | count
      · exact .inl ⟨exhausted, by omega⟩
      · exact .inr (by omega)
  | reduce first crosses left exceeds =>
      refine .inl ⟨rfl, ?_⟩
      simp [first]

/-- The iterations of the matching loop in a submission of `o`, one that ends in the
`break` included. -/
def matchIterations (b : OrderBook) (o : Order) : Nat :=
  if b.canCross o then
    match matchLoop (b.matching o) with
    | .error _ => 0
    | .ok m =>
        (matchRounds (b.matching o)).length +
          if m.incoming.isValid && !m.opposite.empty then 1 else 0
  else 0

theorem matchIterations_le {b : OrderBook} (valid : b.AllValid) {o : Order}
    (hv : o.isValid = true) :
    b.matchIterations o ≤ (b.orders o.side.opposite).length := by
  unfold matchIterations
  split
  · obtain ⟨m, hloop, sweep⟩ :=
      matchLoop_spec (m := b.matching o) (Order.isValid_iff_priced.mp hv).2 (valid _)
    simp only [hloop]
    have count := sweep.length_le
    change (_ ∧ _ ≤ (b.orders o.side.opposite).length) ∨
      _ = (b.orders o.side.opposite).length at count
    split
    · rename_i entered
      obtain ⟨active, nonempty⟩ := Bool.and_eq_true_iff.mp entered
      have left := (Order.isValid_iff.mp active).1
      have some_left : m.opposite.orders ≠ [] := by
        intro hnil
        simp [PriorityQueueAdapter.empty_iff.mpr hnil] at nonempty
      have := List.length_pos_iff.mpr some_left
      rcases count with ⟨exhausted, -⟩ | count
      · exact absurd exhausted left
      · omega
    · rcases count with ⟨-, count⟩ | count <;> omega
  · exact Nat.zero_le _

/-- The answer to a submission that trades `traded` of `volume`. -/
def greedyFlags (volume traded : Nat) : ExecFlags :=
  if traded = 0 then .accepted
  else if traded = volume then .accepted ||| .fullyFilled
  else .accepted ||| .partiallyFilled

theorem traded_pos {b : OrderBook} (valid : b.AllValid) {o : Order} (hv : o.isValid = true)
    (crosses : b.canCross o = true) :
    0 < greedyTraded o.volume.toNat (priceCrosses o) (b.orders o.side.opposite) := by
  have notApart : ¬ ∀ r ∈ (b.orders o.side.opposite).head?, priceCrosses o r = false := by
    intro h
    simp [canCross_eq_false.mpr h] at crosses
  push Not at notApart
  obtain ⟨r, hr, cross⟩ := notApart
  obtain ⟨rest, first⟩ := List.head?_eq_some_iff.mp hr
  have hvalid := valid o.side.opposite r (by simp [first])
  rw [greedyTraded, first, List.takeWhile_cons_of_pos (by simpa using cross),
    totalVolume_cons]
  have := Order.volume_pos hv
  have := Order.volume_pos hvalid
  omega

theorem eq_sub_ofNat {a b : UInt32} {n : Nat} (h : n + a.toNat = b.toNat) :
    a = b - UInt32.ofNat n := by
  have small : n < UInt32.size := Nat.lt_of_le_of_lt (by omega) b.toNat_lt_size
  have value : (UInt32.ofNat n).toNat = n := UInt32.toNat_ofNat_of_lt' small
  have le : UInt32.ofNat n ≤ b := by
    rw [UInt32.le_iff_toNat_le, value]
    omega
  apply UInt32.toNat_inj.mp
  rw [UInt32.toNat_sub_of_le _ _ le, value]
  omega

/-- The own side after a submission of `o` that trades `traded`. -/
def ownAfter (o : Order) (traded : Nat) (own : List Order) : List Order :=
  (if traded < o.volume.toNat then
    [{ o with volume := o.volume - UInt32.ofNat traded }] else []) ++ own

theorem Submission.greedy {b b' : OrderBook} {o : Order} {flags : ExecFlags}
    (hsub : Submission b o flags b') (h : b.WellFormed) (hv : o.isValid = true) :
    let contra := b.orders o.side.opposite
    let traded := greedyTraded o.volume.toNat (priceCrosses o) contra
    flags = greedyFlags o.volume.toNat traded ∧
      (b'.orders o.side.opposite).Perm
        (contraAfter o.volume.toNat (priceCrosses o) contra) ∧
      (b'.orders o.side).Perm (ownAfter o traded (b.orders o.side)) := by
  intro contra traded
  have pos := Order.volume_pos hv
  cases hsub with
  | refused invalid => simp [hv] at invalid
  | rests valid apart =>
      have untraded : traded = 0 := by
        simp [traded, contra, greedyTraded, takeWhile_of_apart apart]
      have perm := PriorityQueueAdapter.orders_push_perm (b.queue o.side) valid
      refine ⟨?_, ?_, ?_⟩
      · simp only [untraded, greedyFlags, ite_true]
      · rw [contraAfter_of_apart (volumes_ne_zero (h.valid _)) apart]
        simp [orders]
      · simpa [untraded, pos, orders, ownAfter] using perm
  | @filled valid m crosses sweep exhausted =>
      obtain ⟨volume, perm⟩ := sweep.greedy (h.valid _)
      have all : traded = o.volume.toNat := by
        rw [exhausted] at volume
        change 0 = o.volume.toNat - totalVolume (contra.takeWhile (priceCrosses o)) at volume
        simp only [traded, greedyTraded]
        omega
      have nonzero : o.volume.toNat ≠ 0 := by omega
      refine ⟨?_, ?_, ?_⟩
      · simp only [greedyFlags, all, nonzero, ite_false, ite_true]
        decide
      · rw [orders, queue_setQueue]
        exact perm
      · simp [all, orders, ownAfter]
  | @partly valid m crosses sweep left =>
      obtain ⟨volume, perm⟩ := sweep.greedy (h.valid _)
      have some_traded : 0 < traded := traded_pos h.valid hv crosses
      change m.incoming.volume.toNat =
        o.volume.toNat - totalVolume (contra.takeWhile (priceCrosses o)) at volume
      have leftPos := toNat_pos left
      have residue : traded + m.incoming.volume.toNat = o.volume.toNat := by
        simp only [traded, greedyTraded]
        omega
      have incoming : m.incoming = { o with volume := o.volume - UInt32.ofNat traded } := by
        rw [← eq_sub_ofNat residue]
        exact sweep.incoming_eq
      have residual := sweep.residual_isValid valid left
      have own := PriorityQueueAdapter.orders_push_perm (b.queue o.side) residual
      refine ⟨?_, ?_, ?_⟩
      · have nonzero : traded ≠ 0 := by omega
        have notAll : traded ≠ o.volume.toNat := by omega
        simp only [greedyFlags, nonzero, notAll, ite_false]
        decide
      · rw [orders, queue_opposite_setQueue, queue_setQueue]
        exact perm
      · have less : traded < o.volume.toNat := by omega
        rw [incoming] at own
        simpa [less, orders, incoming, ownAfter] using own

/-- Submission to any reachable book refines the greedy reference matcher. -/
theorem newOrder_refines_greedy {steps : List BookStep} {b : OrderBook}
    (run : BookRun steps b) {o : Order} (hv : o.isValid = true) :
    let contra := b.orders o.side.opposite
    let traded := greedyTraded o.volume.toNat (priceCrosses o) contra
    ∃ b', b.newOrder o = .ok (greedyFlags o.volume.toNat traded, b') ∧
      b.matchIterations o ≤ contra.length ∧
      (b'.orders o.side.opposite).Perm
        (contraAfter o.volume.toNat (priceCrosses o) contra) ∧
      (b'.orders o.side).Perm (ownAfter o traded (b.orders o.side)) := by
  intro contra traded
  have h := wellFormed_of_run run
  obtain ⟨flags, b', hnew, hsub⟩ := newOrder_submission h.valid o
  obtain ⟨flagsEq, contraEq, ownEq⟩ := hsub.greedy h hv
  exact ⟨b', by rw [hnew, flagsEq], matchIterations_le h.valid hv, contraEq, ownEq⟩

theorem newOrder_refines_greedy_two_bids :
    let b := (replay [.newOrder (.plain .buy 1 1 100 10), .newOrder (.plain .buy 2 2 101 3)]).2
    let o := Order.plain .sell 3 3 99 8
    ∃ b', b.newOrder o = .ok (.accepted ||| .fullyFilled, b') ∧
      (b'.orders .buy).Perm [.plain .buy 1 1 100 5] ∧ (b'.orders .sell).Perm [] := by
  intro b o
  obtain ⟨b', hnew, -, contra, own⟩ := newOrder_refines_greedy (replay_run
    [.newOrder (.plain .buy 1 1 100 10), .newOrder (.plain .buy 2 2 101 3)])
    (o := Order.plain .sell 3 3 99 8) (by decide)
  have flags : greedyFlags o.volume.toNat
      (greedyTraded o.volume.toNat (priceCrosses o) (b.orders .buy)) =
        (.accepted ||| .fullyFilled) := by decide +kernel
  have contraList : contraAfter o.volume.toNat (priceCrosses o) (b.orders .buy) =
      [.plain .buy 1 1 100 5] := by decide +kernel
  have ownList : ownAfter o (greedyTraded o.volume.toNat (priceCrosses o) (b.orders .buy))
      (b.orders .sell) = [] := by decide +kernel
  exact ⟨b', flags ▸ hnew, contraList ▸ contra, ownList ▸ own⟩

end OrderBook

end FastLittleMarket
