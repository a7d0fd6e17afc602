import FastLittleMarket.Book.Index
import FastLittleMarket.Book.Modify

/-!
The aggregate volume map against what rests. Insertion and cancellation keep the
two together as long as the sum of a level fits the `int` it is kept in; matching
never touches the map, so that the first trade makes them differ.
-/

namespace FastLittleMarket

def levelVolume (p : UInt32) (rs : List Order) : Nat :=
  totalVolume (rs.filter fun r => r.priceQ4 = p)

@[simp] theorem levelVolume_nil (p : UInt32) : levelVolume p [] = 0 := rfl

theorem levelVolume_cons (p : UInt32) (r : Order) (rs : List Order) :
    levelVolume p (r :: rs) = (if r.priceQ4 = p then r.volume.toNat else 0) + levelVolume p rs := by
  by_cases h : r.priceQ4 = p <;> simp [levelVolume, h]

theorem levelVolume_perm {rs rs' : List Order} (h : rs.Perm rs') (p : UInt32) :
    levelVolume p rs = levelVolume p rs' :=
  totalVolume_perm (h.filter _)

section Int

theorem toInt_toInt32 (x : UInt32) :
    x.toInt32.toInt =
      if x.toNat < 2147483648 then (x.toNat : Int) else x.toNat - 4294967296 := by
  have h : x.toInt32.toInt = x.toBitVec.toInt := rfl
  have small := x.toNat_lt
  rw [h, BitVec.toInt_eq_toNat_cond]
  change (if 2 * x.toNat < 4294967296 then _ else (x.toNat : Int) - 4294967296) = _
  split <;> split <;> first | rfl | omega

theorem toNat_toUInt32_of_toInt {x : Int32} {n : Nat} (h : x.toInt = n) :
    x.toUInt32.toNat = n ∧ n < 2147483648 := by
  have same := toInt_toInt32 x.toUInt32
  have small := x.toUInt32.toNat_lt
  rw [Int32.toInt32_toUInt32, h] at same
  split at same <;> omega

/-- Adding an unsigned volume to a sum in an `int` is exact just when the result fits. -/
theorem toInt_add_volume {x : Int32} {n : Nat} (h : x.toInt = n) (v : UInt32) :
    (x.toUInt32 + v).toInt32.toInt = (n + v.toNat : Nat) ↔ n + v.toNat < 2147483648 := by
  obtain ⟨value, fits⟩ := toNat_toUInt32_of_toInt h
  have small := v.toNat_lt
  rw [toInt_toInt32, UInt32.toNat_add, value]
  split <;> omega

theorem toInt_sub_volume {x : Int32} {n : Nat} (h : x.toInt = n) {v : UInt32}
    (le : v.toNat ≤ n) : (x.toUInt32 - v).toInt32.toInt = (n - v.toNat : Nat) := by
  obtain ⟨value, fits⟩ := toNat_toUInt32_of_toInt h
  have exact_sub : (x.toUInt32 - v).toNat = n - v.toNat := by
    rw [UInt32.toNat_sub_of_le _ _ (UInt32.le_iff_toNat_le.mpr (value ▸ le)), value]
  rw [toInt_toInt32, exact_sub, if_pos (by omega)]

end Int

namespace OrderBook

variable {b b' : OrderBook} {s : Side}

/-- `volumes_[{p, s}]`, with an absent entry read as 0. -/
def volumeAt (b : OrderBook) (p : UInt32) (s : Side) : Int := ((b.volumes (p, s)).getD 0).toInt

def Tracks (b : OrderBook) : Prop := ∀ p s, b.volumeAt p s = levelVolume p (b.orders s)

theorem tracks_new : new.Tracks := by
  intro p s
  rw [orders_new]
  rfl

section Sweeps

variable {m m' : Matching s} {ms : List (Matching s)}

theorem Sweeps.level_le (h : Sweeps m ms m') (valid : ∀ r ∈ m.opposite.orders, r.isValid = true)
    (p : UInt32) : levelVolume p m'.opposite.orders ≤ levelVolume p m.opposite.orders := by
  induction h with
  | stop h => exact Nat.le_refl _
  | consume first crosses left fits next ih =>
      have tail := orders_consume first
      have rest := ih fun x hx => valid x (by rw [tail] at hx; simp [first, hx])
      rw [tail] at rest
      rw [first, levelVolume_cons]
      exact Nat.le_add_left_of_le rest
  | @reduce m r rest first crosses left exceeds =>
      have perm := orders_reduce_perm (valid r (by simp [first])) first exceeds
      have smaller := UInt32.toNat_sub_of_le _ _ (UInt32.le_of_lt exceeds)
      rw [levelVolume_perm perm, first, levelVolume_cons, levelVolume_cons]
      dsimp only
      split <;> omega

/-- A sweep that starts at a crossing order takes volume from that order's level. -/
theorem Sweeps.level_lt (h : Sweeps m ms m') (valid : ∀ r ∈ m.opposite.orders, r.isValid = true)
    {r : Order} (first : m.opposite.orders.head? = some r) (left : m.incoming.volume ≠ 0)
    (crosses : priceCrosses m.incoming r = true) :
    levelVolume r.priceQ4 m'.opposite.orders < levelVolume r.priceQ4 m.opposite.orders := by
  have positive := Order.volume_pos (valid r (List.mem_of_mem_head? first))
  cases h with
  | stop h =>
      rcases h with h | h
      · exact absurd h left
      · exact absurd (h r first) (by simp [crosses])
  | consume front _ _ fits next =>
      rw [front, List.head?_cons, Option.some.injEq] at first
      rw [first] at front
      have tail := orders_consume front
      rw [first] at next
      have rest := next.level_le
        (fun x hx => valid x (by rw [tail] at hx; simp [front, hx])) r.priceQ4
      rw [tail] at rest
      rw [front, levelVolume_cons, if_pos rfl]
      omega
  | reduce front _ _ exceeds =>
      rw [front, List.head?_cons, Option.some.injEq] at first
      rw [first] at front exceeds
      have perm := orders_reduce_perm (valid r (by simp [front])) front exceeds
      have smaller := UInt32.toNat_sub_of_le _ _ (UInt32.le_of_lt exceeds)
      have some_left := toNat_pos left
      rw [first, levelVolume_perm perm, front, levelVolume_cons, levelVolume_cons]
      simp only [if_true]
      omega

end Sweeps

@[simp] theorem volumeAt_setQueue (b : OrderBook) (s t : Side)
    (q : PriorityQueueAdapter (comparator s)) (p : UInt32) :
    (b.setQueue s q).volumeAt p t = b.volumeAt p t := by
  cases s <;> rfl

theorem volumeAt_addVolume (b : OrderBook) (p p' v : UInt32) (s s' : Side) :
    (b.addVolume p s v).volumeAt p' s' =
      if p' = p ∧ s' = s then (((b.volumes (p, s)).getD 0).toUInt32 + v).toInt32.toInt
      else b.volumeAt p' s' := by
  by_cases h : p' = p ∧ s' = s
  · obtain ⟨rfl, rfl⟩ := h
    simp [volumeAt, addVolume]
  · rw [if_neg h]
    have other : (p', s') ≠ (p, s) := by simpa using h
    simp [volumeAt, addVolume, Function.update_of_ne other]

theorem volumeAt_subVolume (b : OrderBook) (p p' v : UInt32) (s s' : Side) :
    (b.subVolume p s v).volumeAt p' s' =
      if p' = p ∧ s' = s then (((b.volumes (p, s)).getD 0).toUInt32 - v).toInt32.toInt
      else b.volumeAt p' s' := by
  by_cases h : p' = p ∧ s' = s
  · obtain ⟨rfl, rfl⟩ := h
    simp [volumeAt, subVolume]
  · rw [if_neg h]
    have other : (p', s') ≠ (p, s) := by simpa using h
    simp [volumeAt, subVolume, Function.update_of_ne other]

theorem Cancellation.tracks {id : UInt64} {flags : ExecFlags}
    (cancel : Cancellation b id flags b') (tracks : b.Tracks) : b'.Tracks := by
  cases cancel with
  | absent bids asks => exact tracks
  | @removed s o q found first gone =>
      have perm := orders_subset_of_find found gone
      intro p t
      rw [volumeAt_subVolume]
      rcases Side.eq_or_opposite t s with rfl | rfl
      · have level := levelVolume_perm perm
        have here : (b.setQueue t q).volumeAt o.priceQ4 t =
            levelVolume o.priceQ4 (b.orders t) := by
          rw [volumeAt_setQueue]
          exact tracks o.priceQ4 t
        have left : ((b.setQueue t q).subVolume o.priceQ4 t o.volume).orders t = q.orders := by
          simp [orders]
        rw [left]
        by_cases hp : p = o.priceQ4
        · subst hp
          have whole := level o.priceQ4
          rw [levelVolume_cons, if_pos rfl] at whole
          rw [if_pos ⟨rfl, rfl⟩, toInt_sub_volume here (by omega)]
          omega
        · have rest := level p
          rw [levelVolume_cons, if_neg (Ne.symm hp), Nat.zero_add] at rest
          rw [if_neg (fun h => hp h.1), volumeAt_setQueue, tracks p t, rest]
      · have other : ((b.setQueue s q).subVolume o.priceQ4 s o.volume).orders s.opposite =
            b.orders s.opposite := by simp [orders]
        rw [if_neg (fun h => Side.opposite_ne s h.2), volumeAt_setQueue, other]
        exact tracks p s.opposite

theorem not_tracks_of_sweep {o : Order} {m : Matching o.side.opposite} (wf : b.WellFormed)
    (tracks : b.Tracks) (valid : o.isValid = true) (crosses : b.canCross o = true)
    (sweep : Sweeps (b.matching o) (matchRounds (b.matching o)) m)
    (same : ∀ p, b'.volumeAt p o.side.opposite = b.volumeAt p o.side.opposite)
    (contra : b'.orders o.side.opposite = m.opposite.orders) : ¬ b'.Tracks := by
  intro after
  have meets := crosses
  rw [← Bool.not_eq_false, canCross_eq_false] at meets
  push Not at meets
  obtain ⟨r, first, cross⟩ := meets
  have cross : priceCrosses o r = true := by simpa using cross
  have less := sweep.level_lt (wf.valid _) first (Order.isValid_iff.mp valid).1 cross
  have now := after r.priceQ4 o.side.opposite
  rw [same, contra, tracks r.priceQ4 o.side.opposite] at now
  change levelVolume r.priceQ4 m.opposite.orders <
    levelVolume r.priceQ4 (b.orders o.side.opposite) at less
  omega

theorem tracks_push_iff {o : Order} (valid : o.isValid = true) (tracks : b.Tracks) :
    ((b.setQueue o.side ((b.queue o.side).push o).2).addVolume o.priceQ4 o.side o.volume).Tracks ↔
      levelVolume o.priceQ4 (b.orders o.side) + o.volume.toNat < 2147483648 := by
  have perm := PriorityQueueAdapter.orders_push_perm (b.queue o.side) valid
  have own : ((b.setQueue o.side ((b.queue o.side).push o).2).addVolume o.priceQ4 o.side
      o.volume).orders o.side = ((b.queue o.side).push o).2.orders := by simp [orders]
  have contra : ((b.setQueue o.side ((b.queue o.side).push o).2).addVolume o.priceQ4 o.side
      o.volume).orders o.side.opposite = b.orders o.side.opposite := by simp [orders]
  have here : (b.setQueue o.side ((b.queue o.side).push o).2).volumeAt o.priceQ4 o.side =
      levelVolume o.priceQ4 (b.orders o.side) := by
    rw [volumeAt_setQueue]
    exact tracks o.priceQ4 o.side
  have level : levelVolume o.priceQ4 ((b.queue o.side).push o).2.orders =
      levelVolume o.priceQ4 (b.orders o.side) + o.volume.toNat := by
    rw [levelVolume_perm perm, levelVolume_cons, if_pos rfl, Nat.add_comm]
    rfl
  constructor
  · intro after
    have now := after o.priceQ4 o.side
    rw [volumeAt_addVolume, if_pos ⟨rfl, rfl⟩, own, level] at now
    exact (toInt_add_volume here o.volume).mp now
  · intro fits p t
    rw [volumeAt_addVolume]
    rcases Side.eq_or_opposite t o.side with rfl | rfl
    · rw [own]
      by_cases hp : p = o.priceQ4
      · subst hp
        rw [if_pos ⟨rfl, rfl⟩, level]
        exact (toInt_add_volume here o.volume).mpr fits
      · rw [if_neg (fun h => hp h.1), volumeAt_setQueue, levelVolume_perm perm,
          levelVolume_cons, if_neg (Ne.symm hp), Nat.zero_add]
        exact tracks p o.side
    · rw [if_neg (fun h => Side.opposite_ne o.side h.2), volumeAt_setQueue, contra]
      exact tracks p o.side.opposite

theorem Submission.tracks_iff {o : Order} {flags : ExecFlags} (sub : Submission b o flags b')
    (wf : b.WellFormed) (tracks : b.Tracks) :
    b'.Tracks ↔ (o.isValid = true → b.canCross o = false ∧
      levelVolume o.priceQ4 (b.orders o.side) + o.volume.toNat < 2147483648) := by
  cases sub with
  | refused invalid => simp [tracks, invalid]
  | rests valid apart =>
      have stays := canCross_eq_false.mpr apart
      rw [tracks_push_iff valid tracks]
      simp [valid, stays]
  | @filled valid m crosses sweep exhausted =>
      have breaks : ¬ (b.setQueue o.side.opposite m.opposite).Tracks :=
        not_tracks_of_sweep wf tracks valid crosses sweep (by simp) (by simp [orders])
      simp [breaks, valid, crosses]
  | @partly valid m crosses sweep left =>
      have breaks : ¬ ((b.setQueue o.side.opposite m.opposite).setQueue o.side
          ((b.queue o.side).push m.incoming).2).Tracks :=
        not_tracks_of_sweep wf tracks valid crosses sweep (by simp) (by simp [orders])
      simp [breaks, valid, crosses]

/-- The orders the submitted one joins on its side, without the bid that a
modification takes out first. -/
def BookStep.own (t : BookStep) : List Order :=
  match t.label.1 with
  | .newOrder o => t.before.orders o.side
  | .cancelOrder _ => []
  | .modifyOrder id _ _ _ _ =>
      match t.before.buyOrders.find id with
      | .ok (some o) => (t.before.orders .buy).erase o
      | _ => []

/-- What the step submits, if valid, rests at once, and the sum of its level fits an
`int`. -/
def BookStep.Rests (t : BookStep) : Prop :=
  ∀ o ∈ t.submitted, o.isValid = true → t.before.canCross o = false ∧
    levelVolume o.priceQ4 t.own + o.volume.toNat < 2147483648

theorem Answered.tracks_iff {label : Request × ExecFlags} (answered : Answered b label b')
    (wf : b.WellFormed) (tracks : b.Tracks) :
    b'.Tracks ↔ BookStep.Rests ⟨b, label, b'⟩ := by
  cases answered with
  | submits sub =>
      rw [sub.tracks_iff wf tracks]
      simp [BookStep.Rests, BookStep.submitted, BookStep.own]
  | cancels cancel => simp [BookStep.Rests, BookStep.submitted, cancel.tracks tracks]
  | misses found => simp [BookStep.Rests, BookStep.submitted, found, tracks]
  | @replaces id p v g u o q newFlags _ found gone sub =>
      have cancel := cancellation_withoutBid found gone
      have side := wf.replacement_side found p v g u
      have stays : (b.withoutBid q o).canCross (replacement o p v g u).1 = false ↔
          b.canCross (replacement o p v g u).1 = false := by
        rw [canCross_eq_false, canCross_eq_false, side]
        rfl
      have own : levelVolume (replacement o p v g u).1.priceQ4
            ((b.withoutBid q o).orders (replacement o p v g u).1.side) =
          levelVolume (replacement o p v g u).1.priceQ4 ((b.orders .buy).erase o) := by
        rw [side]
        exact (levelVolume_perm (erase_of_gone found gone) _).symm
      rw [sub.tracks_iff (cancel.wellFormed wf) (cancel.tracks tracks), stays, own]
      simp [BookStep.Rests, BookStep.submitted, BookStep.own, found]

/-- The volume map holds the resting volume of every level in every state of a run
just when every valid order the run submits rests at once, with the sum of its level
below 2^31. -/
theorem volumes_track_iff {ts : List BookStep} (run : BookRun ts b) :
    (∀ t ∈ ts, t.after.Tracks) ↔ ∀ t ∈ ts, t.Rests :=
  (run.forall_iff (P := Tracks) (G := BookStep.Rests) tracks_new
    fun _ _ _ _ before tracks answer =>
      ((wellFormed_of_run before).answered answer).tracks_iff (wellFormed_of_run before)
        tracks).2

theorem volumes_track_two_bids :
    let run := replay [.newOrder (.plain .buy 1 1 100 10), .newOrder (.plain .buy 2 2 100 5),
      .cancelOrder (Order.pack 1 1)]
    ∀ t ∈ run.1, t.after.volumeAt 100 .buy = levelVolume 100 (t.after.orders .buy) := by
  intro run t ht
  refine (volumes_track_iff (replay_run [.newOrder (.plain .buy 1 1 100 10),
    .newOrder (.plain .buy 2 2 100 5), .cancelOrder (Order.pack 1 1)])).mpr ?_ t ht 100 .buy
  unfold BookStep.Rests
  decide +kernel

/-- A bid of 10 and an ask of 4 that trades with it: 6 rest, and the map says 10. -/
theorem volumes_drift_on_trade :
    let run := replay [.newOrder (.plain .buy 1 1 100 10), .newOrder (.plain .sell 2 2 99 4)]
    BookRun run.1 run.2 ∧ run.2.volumeAt 100 .buy = 10 ∧
      levelVolume 100 (run.2.orders .buy) = 6 ∧ ¬ run.2.Tracks := by
  intro run
  have kept : run.2.volumeAt 100 .buy = 10 := by decide +kernel
  have left : levelVolume 100 (run.2.orders .buy) = 6 := by decide +kernel
  refine ⟨replay_run _, kept, left, ?_⟩
  intro tracks
  have same := tracks 100 .buy
  rw [kept, left] at same
  exact absurd same (by decide)

end OrderBook

end FastLittleMarket
