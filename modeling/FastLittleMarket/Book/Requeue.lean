import FastLittleMarket.Book.WellFormed

/-!
Where a partly filled order stands after the match.

The loop pops it and pushes it back with less volume, so it lands behind every order
that ties with it. It stays first exactly when the order behind it did not tie.
-/

namespace FastLittleMarket.OrderBook

variable {s : Side}

theorem Sweeps.ends_reduced {m m' x : Matching s} {ms : List (Matching s)} {r : Order}
    {rest : List Order} (h : Sweeps m ms m') (hx : x ∈ ms)
    (first : x.opposite.orders = r :: rest) (exceeds : x.incoming.volume < r.volume) :
    m' = x.reduce r ∧ x.opposite.orders <:+ m.opposite.orders := by
  induction h with
  | stop h => simp at hx
  | @consume m m' ms r' rest' front crosses left fits next ih =>
      rcases List.mem_cons.mp hx with rfl | hx
      · obtain ⟨rfl, -⟩ := List.cons.inj (first.symm.trans front)
        exact absurd exceeds (UInt32.not_lt.mpr fits)
      · obtain ⟨reduced, suffix⟩ := ih hx
        rw [orders_consume front] at suffix
        exact ⟨reduced, suffix.trans (front ▸ List.suffix_cons r' rest')⟩
  | reduce front crosses left exceeds' =>
      obtain rfl := List.mem_singleton.mp hx
      obtain ⟨rfl, -⟩ := List.cons.inj (first.symm.trans front)
      exact ⟨rfl, List.suffix_refl _⟩

/-- A reduced order is first again just when the one behind it did not tie with it, or
cannot be told from it. -/
theorem top_reduce_iff {m : Matching s} {r : Order} {rest : List Order}
    (valid : r.isValid = true) (first : m.opposite.orders = r :: rest)
    (exceeds : m.incoming.volume < r.volume) :
    (m.reduce r).opposite.top = some { r with volume := r.volume - m.incoming.volume } ↔
      ∀ x ∈ rest.head?, x.priceQ4 = r.priceQ4 → x.timestamp = r.timestamp →
        x = { r with volume := r.volume - m.incoming.volume } := by
  rw [PriorityQueueAdapter.top_eq_head?, orders_reduce valid first exceeds]
  cases rest with
  | nil => simp
  | cons y ys =>
      have sorted := m.opposite.priceSorted.values_sorted
      change m.opposite.orders.Pairwise _ at sorted
      rw [first] at sorted
      have notLater : (comparator s).lt y r = false :=
        (List.pairwise_cons.mp sorted).1 y List.mem_cons_self
      have tied := lt_eq_false_iff_tied notLater
      have same : (comparator s).lt { r with volume := r.volume - m.incoming.volume } y =
          (comparator s).lt r y := by
        cases s <;> rfl
      rw [List.orderedInsert_cons, same]
      cases earlier : (comparator s).lt r y with
      | true =>
          have apart : ¬ (r.priceQ4 = y.priceQ4 ∧ r.timestamp = y.timestamp) := by
            intro both
            simp [tied.mpr both] at earlier
          simp only [ite_true, List.head?_cons, Option.mem_def, Option.some.injEq, forall_eq',
            true_iff]
          intro price stamp
          exact absurd ⟨price.symm, stamp.symm⟩ apart
      | false =>
          obtain ⟨price, stamp⟩ := tied.mp earlier
          simp [price, stamp]

/-- The match of `o` fills `r` partly, down to `left`; `rest` is behind it then. -/
def FillsPartly (b : OrderBook) (o r : Order) (rest : List Order) (left : UInt32) : Prop :=
  ∃ m ∈ matchRounds (b.matching o), m.opposite.orders = r :: rest ∧
    m.incoming.volume < r.volume ∧ left = r.volume - m.incoming.volume

theorem matchRounds_of_exit {m : Matching s} (h : matchBody m = .ok (.exit m)) :
    matchRounds m = [] := by
  simp [matchRounds, Loop.rounds, h]

theorem head?_matchRounds {b : OrderBook} {o : Order} (allValid : b.AllValid)
    (valid : o.isValid = true) (crosses : b.canCross o = true) :
    (matchRounds (b.matching o)).head? = some (b.matching o) := by
  obtain ⟨volume, priced⟩ := Order.isValid_iff_priced.mp valid
  obtain ⟨m', -, sweep⟩ := matchLoop_spec (m := b.matching o) priced (allValid _)
  generalize matchRounds (b.matching o) = ms at sweep
  cases sweep with
  | stop h =>
      rcases h with exhausted | apart
      · exact absurd exhausted volume
      · have stays := canCross_eq_false.mpr apart
        simp [stays] at crosses
  | consume first crosses left fits next => rfl
  | reduce first crosses left exceeds => rfl

theorem Submission.of_fillsPartly {b b' : OrderBook} {o r : Order} {rest : List Order}
    {left : UInt32} {flags : ExecFlags} (sub : Submission b o flags b')
    (partly : b.FillsPartly o r rest left) :
    ∃ m : Matching o.side.opposite, m.opposite.orders = r :: rest ∧
      m.incoming.volume < r.volume ∧ left = r.volume - m.incoming.volume ∧
      r :: rest <:+ b.orders o.side.opposite ∧
      b'.queue o.side.opposite = (m.reduce r).opposite := by
  obtain ⟨m, round, first, exceeds, rfl⟩ := partly
  refine ⟨m, first, exceeds, rfl, ?_⟩
  cases sub with
  | refused invalid =>
      have idle : matchBody (b.matching o) = .ok (.exit (b.matching o)) := by
        have incoming : (b.matching o).incoming.isValid = false := invalid
        simp [matchBody, incoming]
      simp [matchRounds_of_exit idle] at round
  | rests valid apart =>
      have idle : matchBody (b.matching o) = .ok (.exit (b.matching o)) :=
        matchBody_stop (.inr apart)
      simp [matchRounds_of_exit idle] at round
  | filled valid crosses sweep exhausted =>
      obtain ⟨rfl, suffix⟩ := sweep.ends_reduced round first exceeds
      exact ⟨first ▸ suffix, by simp⟩
  | partly valid crosses sweep residual =>
      obtain ⟨rfl, -⟩ := sweep.ends_reduced round first exceeds
      exact absurd rfl residual

/-- On every reachable book an order that a submission fills partly is first on its
side afterwards, and the next to be traded with, exactly when the order behind it did
not tie with it, or cannot be told from it. -/
theorem partial_fill_keeps_place_iff {steps : List BookStep} {b : OrderBook}
    (run : BookRun steps b) {o r : Order} {rest : List Order} {left : UInt32}
    (partly : b.FillsPartly o r rest left) :
    ∃ flags b', b.newOrder o = .ok (flags, b') ∧
      r :: rest <:+ b.orders o.side.opposite ∧
      (((b'.queue o.side.opposite).top = some { r with volume := left } ∧
          ∀ next, next.isValid = true → next.side = o.side → b'.canCross next = true →
            ((matchRounds (b'.matching next)).head?.bind fun m => m.opposite.top) =
              some { r with volume := left }) ↔
        ∀ x ∈ rest.head?, x.priceQ4 = r.priceQ4 → x.timestamp = r.timestamp →
          x = { r with volume := left }) := by
  have wf := wellFormed_of_run run
  obtain ⟨flags, b', answer, sub⟩ := newOrder_submission wf.valid o
  have wf' := sub.wellFormed wf
  obtain ⟨m, first, exceeds, rfl, suffix, queue⟩ := sub.of_fillsPartly partly
  have valid := wf.valid _ r (suffix.subset List.mem_cons_self)
  refine ⟨flags, b', answer, suffix, ?_⟩
  rw [← top_reduce_iff valid first exceeds, ← queue]
  refine and_iff_left_of_imp ?_
  intro top next nextValid side crosses
  rw [head?_matchRounds wf'.valid nextValid crosses]
  have other : (b'.queue next.side.opposite).top = (b'.queue o.side.opposite).top := by
    rw [side]
  exact other.trans top

theorem partial_fill_keeps_single_ask :
    let b := (replay [.newOrder (.plain .sell 1 1 100 10)]).2
    ∃ flags b', b.newOrder (.plain .buy 2 2 100 3) = .ok (flags, b') ∧
      (b'.queue .sell).top = some (.plain .sell 1 1 100 7) := by
  intro b
  have run := replay_run [.newOrder (.plain .sell 1 1 100 10)]
  have first := head?_matchRounds (wellFormed_of_run run).valid
    (o := .plain .buy 2 2 100 3) (by decide) (by decide +kernel)
  have partly : b.FillsPartly (.plain .buy 2 2 100 3) (.plain .sell 1 1 100 10) [] 7 :=
    ⟨_, List.mem_of_mem_head? first, by decide +kernel⟩
  obtain ⟨flags, b', answer, -, iff⟩ := partial_fill_keeps_place_iff run partly
  exact ⟨flags, b', answer, (iff.mpr (by simp)).1⟩

/-- Two asks of one price and time stamp: the one that a bid fills partly comes second
afterwards. -/
theorem partial_fill_moves_behind_tie :
    let b := (replay [.newOrder (.plain .sell 1 1 100 10), .newOrder (.plain .sell 2 1 100 10)]).2
    b.FillsPartly (.plain .buy 3 3 100 4) (.plain .sell 1 1 100 10) [.plain .sell 2 1 100 10] 6 ∧
      (b.newOrder (.plain .buy 3 3 100 4)).map (fun answer => answer.2.orders .sell) =
        .ok [.plain .sell 2 1 100 10, .plain .sell 1 1 100 6] := by
  intro b
  have run := replay_run
    [.newOrder (.plain .sell 1 1 100 10), .newOrder (.plain .sell 2 1 100 10)]
  have first := head?_matchRounds (wellFormed_of_run run).valid
    (o := .plain .buy 3 3 100 4) (by decide) (by decide +kernel)
  exact ⟨⟨_, List.mem_of_mem_head? first, by decide +kernel⟩, by decide +kernel⟩

end FastLittleMarket.OrderBook
