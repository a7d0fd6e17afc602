import FastLittleMarket.Book.Links

/-!
Modification. The call looks among the bids only, takes the bid out and submits a
replacement through `newOrder`: so an ask is refused, a replacement that is
refused leaves the book without the order, and one that crosses trades.
-/

namespace FastLittleMarket

namespace OrderBook

variable {b b' : OrderBook} {o : Order} {p v : UInt32} {g g' : GlobalSequencer}
  {u : UnsetFlags}

theorem replacement_isValid (valid : o.isValid = true) :
    (replacement o p v g u).1.isValid = true ↔ p ≠ 0 ∧ v ≠ 0 := by
  have client := (Order.isValid_iff.mp valid).2.2
  rw [Order.isValid_iff, replacement_fields]
  dsimp only
  rw [Order.copyClient_clientView_zero]
  tauto

def acceptedFlags : List ExecFlags :=
  [.accepted, .fullyFilled ||| .accepted, .partiallyFilled ||| .accepted]

theorem Submission.flags_mem {flags : ExecFlags} (sub : Submission b o flags b')
    (valid : o.isValid = true) : flags ∈ acceptedFlags := by
  cases sub with
  | refused invalid => simp [valid] at invalid
  | rests valid apart => simp [acceptedFlags]
  | filled valid crosses sweep exhausted => simp [acceptedFlags]
  | partly valid crosses sweep left => simp [acceptedFlags]

theorem Submission.of_invalid {flags : ExecFlags} (sub : Submission b o flags b')
    (invalid : o.isValid = false) : flags = .rejected ∧ b' = b := by
  cases sub with
  | refused invalid => exact ⟨rfl, rfl⟩
  | rests valid apart => simp [valid] at invalid
  | filled valid crosses sweep exhausted => simp [valid] at invalid
  | partly valid crosses sweep left => simp [valid] at invalid

theorem Submission.of_apart {flags : ExecFlags} (sub : Submission b o flags b')
    (valid : o.isValid = true)
    (apart : ∀ r ∈ (b.orders o.side.opposite).head?, priceCrosses o r = false) :
    flags = .accepted ∧ (b'.orders o.side).Perm (o :: b.orders o.side) ∧
      b'.orders o.side.opposite = b.orders o.side.opposite := by
  have stays := canCross_eq_false.mpr apart
  cases sub with
  | refused invalid => simp [valid] at invalid
  | rests valid apart =>
      refine ⟨rfl, ?_, ?_⟩
      · simpa [orders] using PriorityQueueAdapter.orders_push_perm (b.queue o.side) valid
      · simp [orders]
  | filled valid crosses sweep exhausted => simp [stays] at crosses
  | partly valid crosses sweep left => simp [stays] at crosses

/-- Nothing a caller can see of the book has changed. -/
def Untouched (b b' : OrderBook) : Prop :=
  b'.buyOrders = b.buyOrders ∧ b'.sellOrders = b.sellOrders ∧
    (∀ id, b'.getOrder id = b.getOrder id) ∧ b'.getTopOfBook = b.getTopOfBook

theorem Untouched.refl (b : OrderBook) : Untouched b b := ⟨rfl, rfl, fun _ => rfl, rfl⟩

theorem withoutBid_ne {id : UInt64} {q : PriorityQueueAdapter (comparator .buy)}
    (found : b.buyOrders.find id = .ok (some o)) (gone : b.buyOrders.remove id = .ok (true, q)) :
    q ≠ b.buyOrders := by
  rintro rfl
  have shorter := (orders_subset_of_find (s := .buy) found gone).length_eq
  simp [orders, queue] at shorter

/-- A rejected modification changes nothing exactly when it is not the replacement
of a bid that is rejected, for a zero price or volume. -/
theorem rejected_modify_noop_iff {ts : List BookStep} (run : BookRun ts b) (id : UInt64)
    (p v : UInt32) (g : GlobalSequencer) (u : UnsetFlags) :
    (∀ flags b' g', b.modifyOrder id p v g u = .ok (flags, b', g') →
        flags.hasFlag .rejected = true → b.Untouched b') ↔
      (p ≠ 0 ∧ v ≠ 0) ∨ ∀ o, b.buyOrders.find id ≠ .ok (some o) := by
  have wf := wellFormed_of_run run
  constructor
  · intro noop
    by_contra hne
    rw [not_or, not_forall] at hne
    obtain ⟨zero, o, found⟩ := hne
    rw [not_not] at found
    obtain ⟨q, newFlags, b', gone, sub, hm⟩ := wf.modifyOrder_of_find found p v g u
    have invalid : (replacement o p v g u).1.isValid = false := by
      rw [Bool.eq_false_iff, ne_eq, replacement_isValid (wf.mem_of_find found).2.2]
      exact zero
    obtain ⟨rfl, rfl⟩ := sub.of_invalid invalid
    have untouched := noop _ _ _ hm (by decide)
    exact withoutBid_ne found gone untouched.1
  · intro cond flags b' g' hm rejected
    cases hb : b.buyOrders.find id with
    | error e => simp [modifyOrder, hb] at hm
    | ok found =>
        cases found with
        | none =>
            rw [modifyOrder_of_absent hb, Except.ok.injEq, Prod.mk.injEq, Prod.mk.injEq] at hm
            obtain ⟨-, rfl, -⟩ := hm
            exact .refl b
        | some o =>
            have positive := cond.resolve_right fun h => h o hb
            obtain ⟨q, newFlags, b₂, gone, sub, heq⟩ := wf.modifyOrder_of_find hb p v g u
            rw [heq, Except.ok.injEq, Prod.mk.injEq] at hm
            have accepted := sub.flags_mem
              ((replacement_isValid (wf.mem_of_find hb).2.2).mpr positive)
            have kept : ∀ f ∈ acceptedFlags,
                ExecFlags.hasFlag (.cancelled ||| f) .rejected = false := by decide
            rw [← hm.1, kept newFlags accepted] at rejected
            cases rejected

theorem rejected_modify_noop_absent :
    let b := (replay [.newOrder (.plain .buy 1 1 100 10)]).2
    ∀ flags b' g', b.modifyOrder 999 100 0 ⟨0, 5⟩ ⟨0, 0⟩ = .ok (flags, b', g') →
      flags.hasFlag .rejected = true → b.Untouched b' := by
  intro b
  refine (rejected_modify_noop_iff (replay_run [.newOrder (.plain .buy 1 1 100 10)]) 999 100 0
    ⟨0, 5⟩ ⟨0, 0⟩).mpr (.inr ?_)
  have absent : b.buyOrders.find 999 = .ok none := by decide +kernel
  intro o found
  rw [absent] at found
  cases found

/-- A bid modified to volume zero: the answer contains `REJECTED`, and the bid is gone. -/
theorem rejected_modify_drops_bid :
    let run := replay [.newOrder (.plain .buy 1 1 100 10)]
    BookRun run.1 run.2 ∧ run.2.getTopOfBook.bid = some (.plain .buy 1 1 100 10) ∧
      ∃ flags b' g', run.2.modifyOrder (Order.pack 1 1) 100 0 ⟨0, 5⟩ ⟨0, 0⟩ =
          .ok (flags, b', g') ∧
        flags.hasFlag .rejected = true ∧ b'.getTopOfBook.bid = none ∧ ¬ run.2.Untouched b' := by
  intro run
  have top : run.2.getTopOfBook.bid = some (.plain .buy 1 1 100 10) := by decide +kernel
  have modified : (run.2.modifyOrder (Order.pack 1 1) 100 0 ⟨0, 5⟩ ⟨0, 0⟩).map
      (fun r => (r.1, r.2.1.getTopOfBook.bid)) = .ok (.cancelled ||| .rejected, none) := by
    decide +kernel
  refine ⟨replay_run _, top, ?_⟩
  obtain ⟨⟨flags, b', g'⟩, hm, answer⟩ := Loop.exists_of_map modified
  obtain ⟨rfl, gone⟩ := Prod.mk.inj answer
  refine ⟨_, b', g', hm, by decide, gone, ?_⟩
  intro untouched
  dsimp only at gone
  rw [untouched.2.2.2, top] at gone
  cases gone

/-- A modification into a cross is refused, with the order in place and the other
side as it was, exactly when the bids do not know the id. -/
theorem crossing_modify_rejected_iff {ts : List BookStep} (run : BookRun ts b) {s : Side}
    {x : Order} (rests : x ∈ b.orders s)
    (_crosses : ∃ best, (b.queue s.opposite).top = some best ∧
      priceCrosses { x with priceQ4 := p } best = true)
    (v : UInt32) (g : GlobalSequencer) (u : UnsetFlags) :
    (∃ b' g', b.modifyOrder x.idNs p v g u = .ok (.rejected, b', g') ∧
        x ∈ b'.orders s ∧ b'.orders s.opposite = b.orders s.opposite) ↔
      b.buyOrders.find x.idNs = .ok none := by
  have wf := wellFormed_of_run run
  constructor
  · rintro ⟨b', g', hm, -, -⟩
    cases hb : b.buyOrders.find x.idNs with
    | error e => simp [modifyOrder, hb] at hm
    | ok found =>
        cases found with
        | none => rfl
        | some o =>
            obtain ⟨q, newFlags, b₂, gone, sub, heq⟩ := wf.modifyOrder_of_find hb p v g u
            rw [heq, Except.ok.injEq, Prod.mk.injEq] at hm
            have alone : (.cancelled ||| newFlags : ExecFlags) ≠ .rejected := by
              cases hv : (replacement o p v g u).1.isValid with
              | false =>
                  rw [(sub.of_invalid hv).1]
                  decide
              | true =>
                  have accepted : ∀ f ∈ acceptedFlags,
                      (.cancelled ||| f : ExecFlags) ≠ .rejected := by decide
                  exact accepted newFlags (sub.flags_mem hv)
            exact absurd hm.1 alone
  · intro absent
    exact ⟨b, g, modifyOrder_of_absent absent p v g u, rests, rfl⟩

theorem crossing_modify_rejected_ask :
    let b := (replay [.newOrder (.plain .buy 1 1 100 10), .newOrder (.plain .sell 2 2 110 5)]).2
    ∃ b' g', b.modifyOrder (Order.pack 2 2) 100 5 ⟨0, 5⟩ ⟨0, 0⟩ = .ok (.rejected, b', g') ∧
      .plain .sell 2 2 110 5 ∈ b'.orders .sell ∧ b'.orders .buy = b.orders .buy := by
  intro b
  have asks : b.orders .sell = [.plain .sell 2 2 110 5] := by decide +kernel
  have top : b.buyOrders.top = some (.plain .buy 1 1 100 10) := by decide +kernel
  exact (crossing_modify_rejected_iff (p := 100)
    (replay_run [.newOrder (.plain .buy 1 1 100 10), .newOrder (.plain .sell 2 2 110 5)])
    (s := .sell) (x := .plain .sell 2 2 110 5) (asks ▸ List.mem_singleton_self _)
    ⟨_, top, by decide⟩ 5 ⟨0, 5⟩ ⟨0, 0⟩).mpr (by decide +kernel)

/-- A bid of 100 modified to 120 in front of an ask of 110: it trades. -/
theorem crossing_modify_trades :
    let run := replay [.newOrder (.plain .buy 1 1 100 10), .newOrder (.plain .sell 2 2 110 5)]
    BookRun run.1 run.2 ∧ .plain .buy 1 1 100 10 ∈ run.2.orders .buy ∧
      run.2.sellOrders.top = some (.plain .sell 2 2 110 5) ∧
      (∃ b' g', run.2.modifyOrder (Order.pack 1 1) 120 5 ⟨0, 5⟩ ⟨0, 0⟩ =
        .ok (.cancelled ||| .fullyFilled ||| .accepted, b', g') ∧
        b'.orders .buy = [] ∧ b'.orders .sell = []) ∧
      ¬ ∃ b' g', run.2.modifyOrder (Order.pack 1 1) 120 5 ⟨0, 5⟩ ⟨0, 0⟩ =
        .ok (.rejected, b', g') := by
  intro run
  have modified : (run.2.modifyOrder (Order.pack 1 1) 120 5 ⟨0, 5⟩ ⟨0, 0⟩).map
      (fun r => (r.1, r.2.1.orders .buy, r.2.1.orders .sell)) =
      .ok (.cancelled ||| .fullyFilled ||| .accepted, [], []) := by
    decide +kernel
  have bids : run.2.orders .buy = [.plain .buy 1 1 100 10] := by decide +kernel
  refine ⟨replay_run _, bids ▸ List.mem_singleton_self _, by decide +kernel, ?_⟩
  obtain ⟨⟨flags, b', g'⟩, hm, answer⟩ := Loop.exists_of_map modified
  simp only [Prod.mk.injEq] at answer
  obtain ⟨rfl, gone, taken⟩ := answer
  refine ⟨⟨b', g', hm, gone, taken⟩, ?_⟩
  rintro ⟨b₂, g₂, heq⟩
  rw [hm] at heq
  simp only [Except.ok.injEq, Prod.mk.injEq] at heq
  exact absurd heq.1 (by decide)

theorem WellFormed.modifyOrder_apart (h : b.WellFormed) {id : UInt64}
    (found : b.buyOrders.find id = .ok (some o)) (hp : p ≠ 0) (hv : v ≠ 0)
    (apart : ∀ r ∈ (b.orders .sell).head?, Apart .buy p r.priceQ4) (g : GlobalSequencer)
    (u : UnsetFlags) :
    ∃ rest b', (b.orders .buy).Perm (o :: rest) ∧
      b.modifyOrder id p v g u =
        .ok (.cancelled ||| .accepted, b', (replacement o p v g u).2) ∧
      (b'.orders .buy).Perm ((replacement o p v g u).1 :: rest) ∧
      b'.orders .sell = b.orders .sell := by
  obtain ⟨q, newFlags, b', gone, sub, hm⟩ := h.modifyOrder_of_find found p v g u
  have valid := (h.mem_of_find found).2.2
  have side := h.replacement_side found p v g u
  have price : (replacement o p v g u).1.priceQ4 = p := by rw [replacement_fields]
  obtain ⟨rfl, own, contra⟩ := sub.of_apart ((replacement_isValid valid).mpr ⟨hp, hv⟩) (by
    intro r hr
    rw [side] at hr
    rw [priceCrosses_eq_false, side, price]
    exact apart r hr)
  rw [side] at own contra
  exact ⟨q.orders, b', orders_subset_of_find (s := .buy) found gone, hm, own, contra⟩

/-- In place of `x` there is one new order: of the same side, client and flags, with
the new price and volume and the next timestamp. Every other order rests on. -/
def Replaced (b b' : OrderBook) (x : Order) (p v : UInt32) (g : GlobalSequencer) : Prop :=
  (∀ s, ∀ o ∈ b'.orders s, o.idNs ≠ x.idNs) ∧
    ∃ n : Order, n.side = x.side ∧
      Order.unpack n.idNs = ⟨(Order.unpack x.idNs).id, g.nextTimestampNs.1.toUInt32⟩ ∧
      n.client = x.client ∧ n.type = x.type ∧ n.tim = x.tim ∧
      n.priceQ4 = p ∧ n.volume = v ∧
      (b'.orders x.side).Perm (n :: (b.orders x.side).erase x) ∧
      b'.orders x.side.opposite = b.orders x.side.opposite

theorem eq_of_perm_cons {x y : Order} {l : List Order} (h : (x :: l).Perm (y :: l)) :
    x = y := by
  have count := h.count_eq x
  rw [List.count_cons_self, List.count_cons] at count
  by_contra hne
  have differ : (y == x) = false := by simpa using fun e => hne e.symm
  simp [differ] at count

theorem idNs_replacement_ne {x : Order} :
    (replacement x p v g u).1.idNs ≠ x.idNs ↔
      g.nextTimestampNs.1.toUInt32 ≠ x.timestamp := by
  rw [replacement_fields, not_iff_not]
  constructor
  · intro same
    have stamp := congrArg (fun i => (Order.unpack i).timestampNs) same
    simpa only [Order.unpack_pack, Order.timestamp] using stamp
  · intro same
    rw [same]
    exact Order.pack_unpack x.idNs

theorem replaced_iff {x : Order} {rest : List Order} (bid : x.side = .buy)
    (before : (b.orders .buy).Perm (x :: rest))
    (distinct : ((b.orders .buy ++ b.orders .sell).map Order.idNs).Nodup)
    (own : (b'.orders .buy).Perm ((replacement x p v g u).1 :: rest))
    (contra : b'.orders .sell = b.orders .sell) :
    Replaced b b' x p v g ↔
      (∃ view, x.client = Order.copyClient view) ∧ u = ⟨x.type, x.tim⟩ ∧
        g.nextTimestampNs.1.toUInt32 ≠ x.timestamp := by
  have others : ∀ o, o ∈ rest ∨ o ∈ b.orders .sell → o.idNs ≠ x.idNs := by
    have perm := (before.append_right (b.orders .sell)).map Order.idNs
    rw [perm.nodup_iff, List.cons_append, List.map_cons, List.nodup_cons] at distinct
    intro o ho same
    exact distinct.1 (List.mem_map.mpr ⟨o, List.mem_append.mpr ho, same⟩)
  have erased : ((b.orders .buy).erase x).Perm rest := by
    simpa using before.erase x
  rw [← Order.copyClient_clientView, ← idNs_replacement_ne (p := p) (v := v) (u := u)]
  unfold Replaced
  simp only [bid, Side.opposite]
  constructor
  · rintro ⟨gone, n, -, -, client, type, tim, -, -, perm, -⟩
    have same : n = (replacement x p v g u).1 := by
      have both := (perm.trans (erased.cons n)).symm.trans own
      exact eq_of_perm_cons both
    rw [same, replacement_fields] at client type tim
    refine ⟨client, ?_, gone .buy _ (own.mem_iff.mpr List.mem_cons_self)⟩
    cases u
    simp_all
  · rintro ⟨client, rfl, fresh⟩
    refine ⟨?_, _, ?_, ?_, ?_, ?_, ?_, ?_, ?_, own.trans (erased.symm.cons _), contra⟩
    · intro s o ho
      cases s with
      | buy =>
          rcases List.mem_cons.mp (own.mem_iff.mp ho) with rfl | ho
          · exact fresh
          · exact others o (.inl ho)
      | sell => exact others o (.inr (contra ▸ ho))
    all_goals rw [replacement_fields]
    · exact bid
    · exact Order.unpack_pack _ _
    · exact client

/-- A modification that does not cross replaces exactly the order asked for, exactly
when that is a bid its index finds, in the form the constructor reproduces, and the
timestamp differs from its own. -/
theorem noncrossing_modify_replaces_iff {ts : List BookStep} (run : BookRun ts b)
    (distinct : ((b.orders .buy ++ b.orders .sell).map Order.idNs).Nodup) {s : Side}
    {x : Order} (rests : x ∈ b.orders s) (hp : p ≠ 0) (hv : v ≠ 0)
    (apart : ∀ best, (b.queue s.opposite).top = some best →
      priceCrosses { x with priceQ4 := p } best = false)
    (g : GlobalSequencer) (u : UnsetFlags) :
    (∃ b' g', b.modifyOrder x.idNs p v g u = .ok (.cancelled ||| .accepted, b', g') ∧
        Replaced b b' x p v g) ↔
      s = .buy ∧ b.buyOrders.find x.idNs = .ok (some x) ∧
        (∃ view, x.client = Order.copyClient view) ∧ u = ⟨x.type, x.tim⟩ ∧
        g.nextTimestampNs.1.toUInt32 ≠ x.timestamp := by
  have wf := wellFormed_of_run run
  have side := wf.sides s x rests
  have outcome : s = .buy → b.buyOrders.find x.idNs = .ok (some x) →
      ((∃ b' g', b.modifyOrder x.idNs p v g u = .ok (.cancelled ||| .accepted, b', g') ∧
          Replaced b b' x p v g) ↔
        (∃ view, x.client = Order.copyClient view) ∧ u = ⟨x.type, x.tim⟩ ∧
          g.nextTimestampNs.1.toUInt32 ≠ x.timestamp) := by
    rintro rfl found
    obtain ⟨rest, b₁, before, hm, own, contra⟩ := wf.modifyOrder_apart found hp hv (by
      intro r hr
      have free := apart r (by rw [PriorityQueueAdapter.top_eq_head?]; exact hr)
      rw [priceCrosses_eq_false] at free
      simpa [side] using free) g u
    rw [← replaced_iff side before distinct own contra]
    constructor
    · rintro ⟨b', g', heq, replaced⟩
      rw [hm] at heq
      cases heq
      exact replaced
    · intro replaced
      exact ⟨_, _, hm, replaced⟩
  constructor
  · rintro ⟨b', g', hm, replaced⟩
    cases hb : b.buyOrders.find x.idNs with
    | error e => simp [modifyOrder, hb] at hm
    | ok found =>
        cases found with
        | none =>
            rw [modifyOrder_of_absent hb, Except.ok.injEq, Prod.mk.injEq] at hm
            exact absurd hm.1 (by decide)
        | some o =>
            have mem := (wf.mem_of_find hb).1
            have same : o.idNs = x.idNs := (linked_of_run run .buy).idNs_of_find hb
            have apart_ids := distinct
            rw [List.map_append, List.nodup_append] at apart_ids
            cases s with
            | sell =>
                exact absurd same (apart_ids.2.2 _ (List.mem_map_of_mem mem) _
                  (List.mem_map_of_mem rests))
            | buy =>
                obtain rfl := List.inj_on_of_nodup_map apart_ids.1 mem rests same
                exact ⟨rfl, rfl, (outcome rfl hb).mp ⟨b', g', hm, replaced⟩⟩
  · rintro ⟨bid, found, fields⟩
    exact (outcome bid found).mpr fields

theorem noncrossing_modify_replaces_bid :
    let b := (replay [.newOrder (.plain .buy 1 1 100 10), .newOrder (.plain .sell 2 2 110 5)]).2
    ∃ b' g', b.modifyOrder (Order.pack 1 1) 90 7 ⟨0, 5⟩ ⟨0, 0⟩ =
        .ok (.cancelled ||| .accepted, b', g') ∧
      Replaced b b' (.plain .buy 1 1 100 10) 90 7 ⟨0, 5⟩ := by
  intro b
  have bids : b.orders .buy = [.plain .buy 1 1 100 10] := by decide +kernel
  have asks : b.orders .sell = [.plain .sell 2 2 110 5] := by decide +kernel
  exact (noncrossing_modify_replaces_iff (p := 90) (v := 7)
    (replay_run [.newOrder (.plain .buy 1 1 100 10), .newOrder (.plain .sell 2 2 110 5)])
    (by decide +kernel) (s := .buy) (x := .plain .buy 1 1 100 10)
    (bids ▸ List.mem_singleton_self _) (by decide) (by decide) (by
      intro best top
      rw [PriorityQueueAdapter.top_eq_head?] at top
      change (b.orders .sell).head? = some best at top
      rw [asks, List.head?_cons, Option.some.injEq] at top
      rw [← top]
      decide) ⟨0, 5⟩ ⟨0, 0⟩).mpr
    ⟨rfl, by decide +kernel, Order.copyClient_clientView.mp (by decide +kernel),
      by decide +kernel, by decide⟩

/-- An ask of 110 with nothing on the other side is not modified to 120, and a bid
of type 1 is replaced by an order of type 0. -/
theorem noncrossing_modify_misses :
    let limit : Order := { Order.plain .buy 1 1 100 10 with type := 1 }
    let run := replay [.newOrder limit, .newOrder (.plain .sell 2 2 110 5)]
    BookRun run.1 run.2 ∧ ((run.2.orders .buy ++ run.2.orders .sell).map Order.idNs).Nodup ∧
      run.2.orders .buy = [limit] ∧ run.2.orders .sell = [.plain .sell 2 2 110 5] ∧
      run.2.modifyOrder (Order.pack 2 2) 120 5 ⟨0, 5⟩ ⟨0, 0⟩ = .ok (.rejected, run.2, ⟨0, 5⟩) ∧
      ¬ (∃ b' g', run.2.modifyOrder (Order.pack 2 2) 120 5 ⟨0, 5⟩ ⟨0, 0⟩ =
        .ok (.cancelled ||| .accepted, b', g')) ∧
      (run.2.modifyOrder (Order.pack 1 1) 90 7 ⟨0, 5⟩ ⟨0, 0⟩).map
        (fun r => (r.2.1.orders .buy).map Order.type) = .ok [0] := by
  intro limit run
  have refused : run.2.modifyOrder (Order.pack 2 2) 120 5 ⟨0, 5⟩ ⟨0, 0⟩ =
      .ok (.rejected, run.2, ⟨0, 5⟩) := modifyOrder_of_absent (by decide +kernel) _ _ _ _
  refine ⟨replay_run _, by decide +kernel, by decide +kernel, by decide +kernel, refused, ?_,
    by decide +kernel⟩
  rintro ⟨b', g', heq⟩
  rw [refused, Except.ok.injEq, Prod.mk.injEq] at heq
  exact absurd heq.1 (by decide)

end OrderBook

end FastLittleMarket
