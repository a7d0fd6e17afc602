import FastLittleMarket.Book.Index

/-!
Time priority. At equal prices both comparators put the later timestamp first, so
a price level is served newest first; arrival order is kept exactly when every
level a submission reaches holds a single order.
-/

namespace FastLittleMarket

instance betterPriceDecidable (s : Side) (p q : UInt32) : Decidable (betterPrice s p q) :=
  match s with
  | .buy => inferInstanceAs (Decidable (q < p))
  | .sell => inferInstanceAs (Decidable (p < q))

theorem betterPrice_or_eq (s : Side) (p q : UInt32) :
    betterPrice s p q ∨ p = q ∨ betterPrice s q p := by
  cases s <;> simp only [betterPrice] <;> grind

/-- The volume resting at prices strictly better than `p`. -/
def volumeBetter (s : Side) (p : UInt32) (rs : List Order) : Nat :=
  totalVolume (rs.filter fun x => betterPrice s x.priceQ4 p)

/-- Each price level of `rs` that an incoming `volume` reaches holds one order. -/
def LevelsSingle (s : Side) (volume : Nat) (crosses : Order → Bool) (rs : List Order) : Prop :=
  ∀ r ∈ rs, crosses r = true → volumeBetter s r.priceQ4 rs < volume →
    ∀ a ∈ rs, a.priceQ4 = r.priceQ4 → a = r

section Levels

variable {s : Side} {volume : Nat} {crosses : Order → Bool} {r : Order} {rest : List Order}

theorem volumeBetter_cons_of_better {p : UInt32} (h : betterPrice s r.priceQ4 p) :
    volumeBetter s p (r :: rest) = r.volume.toNat + volumeBetter s p rest := by
  simp [volumeBetter, h]

theorem volumeBetter_cons_of_not {p : UInt32} (h : ¬ betterPrice s r.priceQ4 p) :
    volumeBetter s p (r :: rest) = volumeBetter s p rest := by
  simp [volumeBetter, h]

theorem betterPrice_irrefl (p : UInt32) : ¬ betterPrice s p p := by
  cases s <;> simp [betterPrice]

/-- Reaching the first order of a queue asks that no other has its price, and that
the rest is single under what it leaves of the volume. -/
theorem levelsSingle_cons (best : ∀ x ∈ rest, ¬ betterPrice s x.priceQ4 r.priceQ4)
    (cross : crosses r = true) (left : 0 < volume) (once : r ∉ rest) :
    LevelsSingle s volume crosses (r :: rest) ↔
      (∀ a ∈ rest, a.priceQ4 ≠ r.priceQ4) ∧
        LevelsSingle s (volume - r.volume.toNat) crosses rest := by
  constructor
  · intro h
    refine ⟨?_, ?_⟩
    · intro a ha same
      have nothing : volumeBetter s r.priceQ4 (r :: rest) = 0 := by
        have empty : (r :: rest).filter (fun x => betterPrice s x.priceQ4 r.priceQ4) = [] := by
          simp only [List.filter_eq_nil_iff, decide_eq_true_eq]
          intro x hx
          rcases List.mem_cons.mp hx with rfl | hx
          · exact betterPrice_irrefl _
          · exact best x hx
        simp [volumeBetter, empty]
      have alone := h r (by simp) cross (by rw [nothing]; exact left) a (by simp [ha]) same
      exact once (alone ▸ ha)
    · intro x hx hcross reached a ha same
      refine h x (by simp [hx]) hcross ?_ a (by simp [ha]) same
      by_cases better : betterPrice s r.priceQ4 x.priceQ4
      · rw [volumeBetter_cons_of_better better]
        omega
      · rw [volumeBetter_cons_of_not better]
        omega
  · rintro ⟨alone, later⟩ x hmem hcross reached a hother same
    rcases List.mem_cons.mp hmem with rfl | hx
    · rcases List.mem_cons.mp hother with rfl | ha
      · rfl
      · exact absurd same (alone a ha)
    · have better : betterPrice s r.priceQ4 x.priceQ4 := by
        rcases betterPrice_or_eq s r.priceQ4 x.priceQ4 with h | h | h
        · exact h
        · exact absurd h.symm (alone x hx)
        · exact absurd h (best x hx)
      rw [volumeBetter_cons_of_better better] at reached
      rcases List.mem_cons.mp hother with rfl | ha
      · exact absurd same.symm (alone x hx)
      · exact later x hx hcross (by omega) a ha same

end Levels

namespace OrderBook

section Rounds

variable {s : Side}

def Matching.TakesOldest (m : Matching s) : Prop :=
  ∀ x ∈ m.opposite.top, ∀ a ∈ m.opposite.orders, a.priceQ4 = x.priceQ4 →
    ¬ a.timestamp < x.timestamp

theorem not_lt_of_first {q : PriorityQueueAdapter (comparator s)} {r : Order}
    {rest : List Order} (first : q.orders = r :: rest) :
    ∀ x ∈ rest, (comparator s).lt x r = false := by
  have htop : q.top = some r := by rw [PriorityQueueAdapter.top_eq_head?, first]; rfl
  obtain ⟨_, -, least⟩ := PriorityQueueAdapter.top_spec htop
  exact fun x hx => least x (by simp [first, hx])

theorem takesOldest_iff {m : Matching s} {r : Order} {rest : List Order}
    (first : m.opposite.orders = r :: rest)
    (distinct : (m.opposite.orders.map Order.timestamp).Nodup) :
    m.TakesOldest ↔ ∀ a ∈ rest, a.priceQ4 ≠ r.priceQ4 := by
  have htop : m.opposite.top = some r := by
    rw [PriorityQueueAdapter.top_eq_head?, first]
    rfl
  rw [first, List.map_cons, List.nodup_cons] at distinct
  unfold Matching.TakesOldest
  simp only [htop, Option.mem_def, Option.some.injEq, forall_eq', first]
  constructor
  · intro oldest a ha same
    have notFirst := not_lt_of_first first a ha
    have notLater : ¬ r.timestamp < a.timestamp := by
      intro later
      have := (comparator_lt_iff s a r).mpr (.inr ⟨same, later⟩)
      simp [notFirst] at this
    have other : a.timestamp ≠ r.timestamp := fun h =>
      distinct.1 (List.mem_map.mpr ⟨a, ha, h⟩)
    exact oldest a (by simp [ha]) same
      (UInt32.lt_of_le_of_ne (UInt32.not_lt.mp notLater) other)
  · intro alone a ha same
    rcases List.mem_cons.mp ha with rfl | ha
    · exact UInt32.lt_irrefl _
    · exact absurd same (alone a ha)

/-- A match serves every level oldest first just when it reaches single orders. -/
theorem Sweeps.takesOldest_iff {m m' : Matching s} {ms : List (Matching s)}
    (h : Sweeps m ms m') (contra : m.incoming.side.opposite = s)
    (distinct : (m.opposite.orders.map Order.timestamp).Nodup) :
    (∀ x ∈ ms, x.TakesOldest) ↔
      LevelsSingle s m.incoming.volume.toNat (priceCrosses m.incoming) m.opposite.orders := by
  have once : ∀ {r : Order} {rest : List Order},
      ((r :: rest).map Order.timestamp).Nodup → r ∉ rest := by
    intro r rest distinct hmem
    exact (List.nodup_cons.mp distinct).1 (List.mem_map.mpr ⟨r, hmem, rfl⟩)
  have best : ∀ {q : PriorityQueueAdapter (comparator s)} {r : Order} {rest : List Order},
      q.orders = r :: rest → ∀ x ∈ rest, ¬ betterPrice s x.priceQ4 r.priceQ4 :=
    fun first x hx => not_betterPrice_of_lt_eq_false (not_lt_of_first first x hx)
  induction h with
  | @stop m h =>
      refine ⟨fun _ => ?_, fun _ => by simp⟩
      intro r hr cross reached
      rcases h with exhausted | apart
      · rw [exhausted] at reached
        exact absurd reached (Nat.not_lt_zero _)
      · have none_cross := apart_of_head contra apart r hr
        rw [priceCrosses_eq_false.mpr none_cross] at cross
        cases cross
  | @consume m m' ms r rest first crosses left fits next ih =>
      have tail := orders_consume first
      have volume : (m.consume r).incoming.volume.toNat =
          m.incoming.volume.toNat - r.volume.toNat := UInt32.toNat_sub_of_le _ _ fits
      have same : priceCrosses (m.consume r).incoming = priceCrosses m.incoming := rfl
      have head := OrderBook.takesOldest_iff first distinct
      rw [first] at distinct
      have later := ih contra (by rw [tail]; exact (List.nodup_cons.mp distinct).2)
      rw [tail, volume, same] at later
      rw [first]
      refine (List.forall_mem_cons.trans (and_congr head later)).trans ?_
      exact (levelsSingle_cons (best first) crosses (toNat_pos left) (once distinct)).symm
  | @reduce m r rest first crosses left exceeds =>
      have head := OrderBook.takesOldest_iff first distinct
      have lt := UInt32.lt_iff_toNat_lt.mp exceeds
      have spent : m.incoming.volume.toNat - r.volume.toNat = 0 :=
        Nat.sub_eq_zero_of_le (Nat.le_of_lt lt)
      have none_reached : LevelsSingle s 0 (priceCrosses m.incoming) rest :=
        fun x _ _ reached => absurd reached (Nat.not_lt_zero _)
      rw [first] at distinct ⊢
      rw [levelsSingle_cons (best first) crosses (toNat_pos left) (once distinct), spent]
      simpa [none_reached] using head

theorem Sweeps.rounds_suffix {m m' : Matching s} {ms : List (Matching s)}
    (h : Sweeps m ms m') : ∀ x ∈ ms, x.opposite.orders <:+ m.opposite.orders := by
  induction h with
  | stop h => simp
  | @consume m m' ms r rest first crosses left fits next ih =>
      intro x hx
      rcases List.mem_cons.mp hx with rfl | hx
      · exact List.suffix_refl _
      · have later := ih x hx
        rw [orders_consume first] at later
        exact later.trans (first ▸ List.suffix_cons r rest)
  | reduce first crosses left exceeds =>
      intro x hx
      obtain rfl := List.mem_singleton.mp hx
      exact List.suffix_refl _

theorem Sweeps.timestamps_nodup {m m' : Matching s} {ms : List (Matching s)}
    (h : Sweeps m ms m') (valid : ∀ r ∈ m.opposite.orders, r.isValid = true)
    (distinct : (m.opposite.orders.map Order.timestamp).Nodup) :
    (m'.opposite.orders.map Order.timestamp).Nodup := by
  induction h with
  | stop h => exact distinct
  | @consume m m' ms r rest first crosses left fits next ih =>
      have tail := orders_consume first
      rw [first] at distinct
      exact ih (fun x hx => valid x (by rw [tail] at hx; simp [first, hx]))
        (by rw [tail]; exact (List.nodup_cons.mp distinct).2)
  | @reduce m r rest first crosses left exceeds =>
      have perm := orders_reduce_perm (valid r (by simp [first])) first exceeds
      rw [(perm.map Order.timestamp).nodup_iff]
      rw [first] at distinct
      exact distinct

end Rounds

/-- The contra order a round takes volume from, and the contra queue at that moment. -/
structure Trade where
  taken : Order
  queue : List Order

def BookStep.trades (t : BookStep) : List Trade :=
  match t.label.1 with
  | .newOrder o =>
      if o.isValid && t.before.canCross o then
        (matchRounds (t.before.matching o)).filterMap fun m =>
          m.opposite.top.map fun x => ⟨x, m.opposite.orders⟩
      else []
  | _ => []

def BookStep.acceptedId (t : BookStep) : Option UInt64 :=
  match t.label with
  | (.newOrder o, flags) => if flags.hasFlag .accepted then some o.idNs else none
  | _ => none

def acceptedIds (ts : List BookStep) : List UInt64 := ts.filterMap BookStep.acceptedId

def AcceptedBefore (ts : List BookStep) (a x : Order) : Prop :=
  [a.idNs, x.idNs].Sublist (acceptedIds ts)

/-- After the steps `us`, the step takes volume from no order while an order of the
same price accepted before it still has volume. -/
def BookStep.KeepsArrival (us : List BookStep) (t : BookStep) : Prop :=
  ∀ trade ∈ t.trades, ∀ a ∈ trade.queue, a.priceQ4 = trade.taken.priceQ4 →
    ¬ AcceptedBefore us a trade.taken

def TimePriority (ts : List BookStep) : Prop :=
  ∀ i (t : BookStep), ts[i]? = some t → t.KeepsArrival (ts.take i)

def BookStep.LevelsSingle (t : BookStep) : Prop :=
  ∀ o ∈ t.submitted, o.isValid = true →
    FastLittleMarket.LevelsSingle o.side.opposite o.volume.toNat (priceCrosses o)
      (t.before.orders o.side.opposite)

instance (us : List BookStep) (t : BookStep) : Decidable (t.KeepsArrival us) :=
  inferInstanceAs (Decidable (∀ trade ∈ t.trades, ∀ a ∈ trade.queue,
    a.priceQ4 = trade.taken.priceQ4 → ¬ [a.idNs, trade.taken.idNs].Sublist (acceptedIds us)))

instance (t : BookStep) : Decidable t.LevelsSingle :=
  inferInstanceAs (Decidable (∀ o ∈ t.submitted, o.isValid = true →
    ∀ r ∈ t.before.orders o.side.opposite, priceCrosses o r = true →
      volumeBetter o.side.opposite r.priceQ4 (t.before.orders o.side.opposite) <
        o.volume.toNat →
      ∀ a ∈ t.before.orders o.side.opposite, a.priceQ4 = r.priceQ4 → a = r))

theorem acceptedIds_sublist (ts : List BookStep) :
    (acceptedIds ts).Sublist (submittedIds ts) := by
  induction ts with
  | nil => exact List.Sublist.slnil
  | cons t ts ih =>
      obtain ⟨before, ⟨request, flags⟩, after⟩ := t
      cases request with
      | newOrder o =>
          by_cases accepted : flags.hasFlag .accepted = true
          · simpa [acceptedIds, submittedIds, BookStep.acceptedId, BookStep.submitted,
              accepted] using ih
          · simpa [acceptedIds, submittedIds, BookStep.acceptedId, BookStep.submitted,
              accepted] using ih.cons o.idNs
      | cancelOrder id =>
          simpa [acceptedIds, submittedIds, List.filterMap_cons, BookStep.acceptedId,
            BookStep.submitted] using ih
      | modifyOrder id p v g u =>
          refine ih.trans ?_
          unfold submittedIds
          rw [List.filterMap_cons]
          split
          · exact List.Sublist.refl _
          · exact List.sublist_cons_self _ _

theorem sublist_pair_iff {α : Type*} {f : α → UInt32} {l : List α}
    (sorted : l.Pairwise fun x y => f x < f y) {a b : α} (ha : a ∈ l) (hb : b ∈ l) :
    [a, b].Sublist l ↔ f a < f b := by
  constructor
  · intro h
    simpa using sorted.sublist h
  · intro lt
    induction l with
    | nil => cases ha
    | cons c l ih =>
        obtain ⟨least, sorted⟩ := List.pairwise_cons.mp sorted
        rcases List.mem_cons.mp ha with rfl | ha'
        · rcases List.mem_cons.mp hb with rfl | hb'
          · exact absurd lt (UInt32.lt_irrefl _)
          · exact (List.singleton_sublist.mpr hb').cons_cons _
        · rcases List.mem_cons.mp hb with rfl | hb'
          · exact absurd lt (UInt32.not_lt.mpr (UInt32.le_of_lt (least a ha')))
          · exact (ih sorted ha' hb').cons c

def stampOf (idNs : UInt64) : UInt32 := (Order.unpack idNs).timestampNs

/-- Resting orders are among the ids `ids`, and no two of a side share a timestamp. -/
structure Arrived (ids : List UInt64) (b : OrderBook) : Prop where
  known : ∀ s, ∀ o ∈ b.orders s, o.idNs ∈ ids
  distinct : ∀ s, ((b.orders s).map Order.timestamp).Nodup

theorem arrived_new : new.Arrived [] where
  known := by simp
  distinct := by simp

theorem nodup_push {s : Side} {ids : List UInt64} {b : OrderBook} {x : Order}
    (h : b.Arrived ids) (valid : x.isValid = true)
    (later : ∀ id ∈ ids, stampOf id ≠ x.timestamp) :
    ((((b.queue s).push x).2.orders).map Order.timestamp).Nodup := by
  rw [((PriorityQueueAdapter.orders_push_perm (b.queue s) valid).map _).nodup_iff,
    List.map_cons, List.nodup_cons]
  refine ⟨?_, h.distinct s⟩
  intro hmem
  obtain ⟨y, hy, same⟩ := List.mem_map.mp hmem
  exact later y.idNs (h.known s y hy) same

theorem Submission.arrived {b b' : OrderBook} {o : Order} {flags : ExecFlags}
    {ids : List UInt64} (hsub : Submission b o flags b') (wf : b.WellFormed)
    (h : b.Arrived ids) (later : ∀ id ∈ ids, stampOf id ≠ o.timestamp) :
    b'.Arrived (if flags.hasFlag .accepted then ids ++ [o.idNs] else ids) := by
  have known : ∀ s, ∀ x ∈ b'.orders s, x.idNs ∈ ids ++ [o.idNs] := by
    intro s x hx
    rcases hsub.rested wf s hx with ⟨-, same⟩ | ⟨y, hy, same⟩
    · exact List.mem_append_right _ (List.mem_singleton.mpr same)
    · exact List.mem_append_left _ (same ▸ h.known s y hy)
  cases hsub with
  | refused invalid =>
      have flag : ExecFlags.hasFlag .rejected .accepted = false := by decide
      simpa [flag] using h
  | rests valid apart =>
      have flag : ExecFlags.hasFlag .accepted .accepted = true := by decide
      rw [flag, if_pos rfl]
      refine ⟨known, ?_⟩
      intro s
      rcases Side.eq_or_opposite s o.side with rfl | rfl
      · simpa [orders] using nodup_push h valid later
      · simpa [orders] using h.distinct o.side.opposite
  | @filled valid m crosses sweep exhausted =>
      have flag : ExecFlags.hasFlag (.fullyFilled ||| .accepted) .accepted = true := by decide
      rw [flag, if_pos rfl]
      refine ⟨known, ?_⟩
      intro s
      rcases Side.eq_or_opposite s o.side with rfl | rfl
      · simpa [orders] using h.distinct o.side
      · simpa [orders] using sweep.timestamps_nodup (wf.valid _) (h.distinct _)
  | @partly valid m crosses sweep left =>
      have flag : ExecFlags.hasFlag (.partiallyFilled ||| .accepted) .accepted = true := by
        decide
      have sameId : m.incoming.idNs = o.idNs := sweep.idNs_eq
      have residual := sweep.residual_isValid valid left
      have stamp : m.incoming.timestamp = o.timestamp := by
        rw [Order.timestamp, sameId, Order.timestamp]
      rw [flag, if_pos rfl]
      refine ⟨known, ?_⟩
      intro s
      rcases Side.eq_or_opposite s o.side with rfl | rfl
      · simpa [orders] using nodup_push h residual (by rwa [stamp])
      · simpa [orders] using sweep.timestamps_nodup (wf.valid _) (h.distinct _)

theorem arrived_of_run {ts : List BookStep} {b : OrderBook} (run : BookRun ts b)
    (submits : ∀ t ∈ ts, ∃ o, t.label.1 = .newOrder o)
    (stamped : (submittedIds ts).Pairwise fun i j => stampOf i < stampOf j) :
    b.Arrived (acceptedIds ts) := by
  have h : ((submittedIds ts).Pairwise fun i j => stampOf i < stampOf j) →
      b.Arrived (acceptedIds ts) := by
    refine run.invariant_of (G := fun t => ∃ o, t.label.1 = .newOrder o)
      (I := fun ts b => ((submittedIds ts).Pairwise fun i j => stampOf i < stampOf j) →
        b.Arrived (acceptedIds ts))
      (fun _ => arrived_new) ?_ submits
    rintro ts b ⟨request, flags⟩ b' before ih answer ⟨o, ho⟩ stamped
    simp only at ho
    subst ho
    have wf := wellFormed_of_run before
    simp only [submittedIds, List.filterMap_append, List.map_append, BookStep.submitted,
      List.filterMap_cons, List.filterMap_nil, List.map_cons, List.map_nil] at stamped
    obtain ⟨earlier, -, later⟩ := List.pairwise_append.mp stamped
    have grown := (submission_of_newOrder wf.valid answer).arrived wf (ih earlier)
      (fun id hid => by
        have lt := later id ((acceptedIds_sublist ts).subset hid) o.idNs (by simp)
        exact UInt32.ne_of_lt lt)
    have ids : acceptedIds (ts ++ [⟨b, (.newOrder o, flags), b'⟩]) =
        if flags.hasFlag .accepted then acceptedIds ts ++ [o.idNs] else acceptedIds ts := by
      by_cases accepted : flags.hasFlag .accepted = true <;>
        simp [acceptedIds, BookStep.acceptedId, accepted]
    rw [ids]
    exact grown
  exact h stamped

theorem trades_of_valid {b b' : OrderBook} {o : Order} {flags : ExecFlags}
    (valid : o.isValid = true) :
    BookStep.trades ⟨b, (.newOrder o, flags), b'⟩ =
      (matchRounds (b.matching o)).filterMap fun m =>
        m.opposite.top.map fun x => ⟨x, m.opposite.orders⟩ := by
  cases crosses : b.canCross o with
  | true => simp only [BookStep.trades, valid, crosses, Bool.and_self, ite_true]
  | false =>
      have stopped : matchBody (b.matching o) = .ok (.exit (b.matching o)) :=
        matchBody_stop (.inr (canCross_eq_false.mp crosses))
      simp [BookStep.trades, valid, crosses, matchRounds, Loop.rounds, stopped]

/-- On a book of known arrivals a submission keeps to them just when the levels it
reaches are single. -/
theorem keepsArrival_iff {us : List BookStep} {b b' : OrderBook} {o : Order}
    {flags : ExecFlags} (wf : b.WellFormed) (arrived : b.Arrived (acceptedIds us))
    (sorted : (acceptedIds us).Pairwise fun i j => stampOf i < stampOf j) :
    BookStep.KeepsArrival us ⟨b, (.newOrder o, flags), b'⟩ ↔
      BookStep.LevelsSingle ⟨b, (.newOrder o, flags), b'⟩ := by
  cases valid : o.isValid with
  | false => simp [BookStep.KeepsArrival, BookStep.LevelsSingle, BookStep.trades,
      BookStep.submitted, valid]
  | true =>
      obtain ⟨m', -, sweep⟩ := matchLoop_spec (m := b.matching o)
        (Order.isValid_iff_priced.mp valid).2 (wf.valid _)
      have oldest : (∀ m ∈ matchRounds (b.matching o), m.TakesOldest) ↔
          FastLittleMarket.LevelsSingle o.side.opposite o.volume.toNat (priceCrosses o)
            (b.orders o.side.opposite) :=
        sweep.takesOldest_iff rfl (arrived.distinct o.side.opposite)
      have known : ∀ m ∈ matchRounds (b.matching o), ∀ x ∈ m.opposite.orders,
          x.idNs ∈ acceptedIds us := fun m hm x hx =>
        arrived.known _ x ((sweep.rounds_suffix m hm).subset hx)
      have topKnown : ∀ m ∈ matchRounds (b.matching o), ∀ x ∈ m.opposite.top,
          x ∈ m.opposite.orders := by
        intro m _ x hx
        rw [PriorityQueueAdapter.top_eq_head?] at hx
        exact List.mem_of_mem_head? hx
      have levels : BookStep.LevelsSingle ⟨b, (.newOrder o, flags), b'⟩ ↔
          FastLittleMarket.LevelsSingle o.side.opposite o.volume.toNat (priceCrosses o)
            (b.orders o.side.opposite) := by
        simp [BookStep.LevelsSingle, BookStep.submitted, valid]
      rw [levels, ← oldest]
      unfold BookStep.KeepsArrival Matching.TakesOldest
      rw [trades_of_valid valid]
      constructor
      · intro h m hm x hx a ha same older
        refine h ⟨x, m.opposite.orders⟩ ?_ a ha same ?_
        · exact List.mem_filterMap.mpr ⟨m, hm, by rw [hx]; rfl⟩
        · exact (sublist_pair_iff sorted (known m hm a ha)
            (known m hm x (topKnown m hm x hx))).mpr older
      · intro h trade htrade a ha same before
        obtain ⟨m, hm, htop⟩ := List.mem_filterMap.mp htrade
        obtain ⟨x, hx, rfl⟩ := Option.map_eq_some_iff.mp htop
        exact h m hm x hx a ha same ((sublist_pair_iff sorted (known m hm a ha)
          (known m hm x (topKnown m hm x hx))).mp before)

/-- A run of submissions with increasing timestamps serves every price level in the
order of arrival just when each level it reaches holds a single order. -/
theorem time_priority_iff_single_levels {ts : List BookStep} {b : OrderBook}
    (run : BookRun ts b) (submits : ∀ t ∈ ts, ∃ o, t.label.1 = .newOrder o)
    (stamped : ((ts.filterMap BookStep.submitted).map Order.timestamp).Pairwise (· < ·)) :
    TimePriority ts ↔ ∀ t ∈ ts, t.LevelsSingle := by
  have stamped : (submittedIds ts).Pairwise fun i j => stampOf i < stampOf j := by
    simp only [submittedIds, List.pairwise_map] at stamped ⊢
    exact stamped
  have each : ∀ i (t : BookStep), ts[i]? = some t →
      (t.KeepsArrival (ts.take i) ↔ t.LevelsSingle) := by
    intro i t hi
    obtain ⟨hlt, hget⟩ := List.getElem?_eq_some_iff.mp hi
    have split : ts = ts.take i ++ t :: ts.drop (i + 1) := by
      rw [← hget, ← List.drop_eq_getElem_cons hlt, List.take_append_drop]
    have before := (Run.split (split ▸ run)).1
    have sub : (submittedIds (ts.take i)).Sublist (submittedIds ts) :=
      ((List.take_sublist i ts).filterMap _).map _
    have earlier := stamped.sublist sub
    have arrived := arrived_of_run before
      (fun u hu => submits u ((List.take_sublist i ts).subset hu)) earlier
    obtain ⟨o, ho⟩ := submits t (List.mem_of_getElem? hi)
    obtain ⟨b₀, ⟨request, flags⟩, b₁⟩ := t
    simp only at ho
    subst ho
    exact keepsArrival_iff (wellFormed_of_run before) arrived
      (earlier.sublist (acceptedIds_sublist _))
  constructor
  · intro h t ht
    obtain ⟨i, hlt, rfl⟩ := List.mem_iff_getElem.mp ht
    have hi : ts[i]? = some ts[i] := List.getElem?_eq_getElem hlt
    exact (each i _ hi).mp (h i _ hi)
  · intro h i t hi
    exact (each i t hi).mpr (h t (List.mem_of_getElem? hi))

theorem time_priority_two_levels :
    let run := replay [.newOrder (.plain .sell 1 1 100 5), .newOrder (.plain .sell 2 2 101 5),
      .newOrder (.plain .buy 3 3 101 8)]
    run.2.sellOrders.orders = [.plain .sell 2 2 101 2] ∧ TimePriority run.1 := by
  intro run
  refine ⟨by decide +kernel, ?_⟩
  refine (time_priority_iff_single_levels (replay_run _) ?_ (by decide +kernel)).mpr
    (by decide +kernel)
  intro t ht
  have requested := request_mem_of_replayFrom step ht
  simp only [List.mem_cons, List.not_mem_nil, or_false] at requested
  rcases requested with h | h | h <;> exact ⟨_, h⟩

/-- Of two asks at 100 a bid takes the one that came second. -/
theorem later_ask_traded_first :
    let run := replay [.newOrder (.plain .sell 1 1 100 10), .newOrder (.plain .sell 2 2 100 10),
      .newOrder (.plain .buy 3 3 100 10)]
    BookRun run.1 run.2 ∧ (∀ t ∈ run.1, ∃ o, t.label.1 = .newOrder o) ∧
      ((run.1.filterMap BookStep.submitted).map Order.timestamp).Pairwise (· < ·) ∧
      run.2.sellOrders.orders = [.plain .sell 1 1 100 10] ∧ ¬ TimePriority run.1 := by
  intro run
  refine ⟨replay_run _, ?_, by decide +kernel, by decide +kernel, ?_⟩
  · intro t ht
    have requested := request_mem_of_replayFrom step ht
    simp only [List.mem_cons, List.not_mem_nil, or_false] at requested
    rcases requested with h | h | h <;> exact ⟨_, h⟩
  · intro priority
    have broken : ∀ t ∈ run.1[2]?, ¬ t.KeepsArrival (run.1.take 2) := by decide +kernel
    have taken : run.1[2]?.isSome = true := by decide +kernel
    obtain ⟨t, ht⟩ := Option.isSome_iff_exists.mp taken
    exact broken t ht (priority 2 t ht)

end OrderBook

end FastLittleMarket
