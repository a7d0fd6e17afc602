import FastLittleMarket.Book.Modify

/-!
The flags a book answers with, against its own `isValid`. Submissions and
cancellations meet it. A modification answers for the cancellation and the
submission it is made of, both in one value.
-/

namespace FastLittleMarket.OrderBook

variable {b b' : OrderBook}

theorem Submission.flags_isValid {o : Order} {flags : ExecFlags}
    (sub : Submission b o flags b') : flags.isValid = true := by
  cases hv : o.isValid with
  | false =>
      rw [(sub.of_invalid hv).1]
      decide
  | true =>
      have each : ∀ f ∈ acceptedFlags, f.isValid = true := by decide
      exact each flags (sub.flags_mem hv)

theorem Cancellation.flags_isValid {id : UInt64} {flags : ExecFlags}
    (cancel : Cancellation b id flags b') : flags.isValid = true := by
  cases cancel with
  | absent bids asks => decide
  | removed found first gone => decide

theorem Answered.flags_isValid {request : Request} {flags : ExecFlags}
    (answered : Answered b (request, flags) b') (direct : request.Direct) :
    flags.isValid = true := by
  cases answered with
  | submits sub => exact sub.flags_isValid
  | cancels cancel => exact cancel.flags_isValid
  | misses found => exact direct.elim
  | replaces found gone sub => exact direct.elim

/-- No answer says both that an order was filled in part and that it was filled. -/
theorem Answered.one_fill {request : Request} {flags : ExecFlags}
    (answered : Answered b (request, flags) b') :
    (flags.hasFlag .partiallyFilled && flags.hasFlag .fullyFilled) = false := by
  have refused : ∀ f ∈ [ExecFlags.rejected, .cancelled, .cancelled ||| .rejected],
      (f.hasFlag .partiallyFilled && f.hasFlag .fullyFilled) = false := by decide
  have accepted : ∀ f ∈ acceptedFlags,
      (f.hasFlag .partiallyFilled && f.hasFlag .fullyFilled) = false ∧
        ((ExecFlags.cancelled ||| f).hasFlag .partiallyFilled &&
          (ExecFlags.cancelled ||| f).hasFlag .fullyFilled) = false := by decide
  cases answered with
  | @submits o flags b' sub =>
      cases hv : o.isValid with
      | false =>
          rw [(sub.of_invalid hv).1]
          exact refused _ (by simp)
      | true => exact (accepted flags (sub.flags_mem hv)).1
  | cancels cancel =>
      cases cancel with
      | absent bids asks => exact refused _ (by simp)
      | removed found first gone => exact refused _ (by simp)
  | misses found => exact refused _ (by simp)
  | @replaces id p v g u o q newFlags b' found gone sub =>
      cases hv : (replacement o p v g u).1.isValid with
      | false =>
          rw [(sub.of_invalid hv).1]
          exact refused _ (by simp)
      | true => exact (accepted newFlags (sub.flags_mem hv)).2

/-- Submissions and cancellations answer with valid flags. A modification answers
`REJECTED` alone for an id the bids do not know; for one they know, a positive
price and volume are not rejected, and are answered `CANCELLED` and `ACCEPTED` in
one value when the replacement does not cross. -/
theorem answered_flags {ts : List BookStep} (run : BookRun ts b) {request : Request}
    {flags : ExecFlags} (answer : b.step request = .ok (flags, b')) :
    (flags.hasFlag .partiallyFilled && flags.hasFlag .fullyFilled) = false ∧
      (request.Direct → flags.isValid = true) ∧
      ∀ id p v g u, request = .modifyOrder id p v g u →
        (b.buyOrders.find id = .ok none → flags = .rejected) ∧
        ∀ o, b.buyOrders.find id = .ok (some o) → p ≠ 0 → v ≠ 0 →
          flags.hasFlag .rejected = false ∧
            ((∀ ask, b.getTopOfBook.ask = some ask → p < ask.priceQ4) →
              flags = .cancelled ||| .accepted) := by
  have wf := wellFormed_of_run run
  have answered : Answered b (request, flags) b' := wf.answered answer
  refine ⟨answered.one_fill, answered.flags_isValid, ?_⟩
  rintro id p v g u rfl
  cases answered with
  | misses found =>
      refine ⟨fun _ => rfl, ?_⟩
      intro o other
      rw [found] at other
      cases other
  | @replaces _ _ _ _ _ o q newFlags _ found gone sub =>
      refine ⟨?_, ?_⟩
      · intro other
        rw [found] at other
        cases other
      · intro o' same hp hv
        rw [found] at same
        cases same
        have kept : ∀ f ∈ acceptedFlags,
            ExecFlags.hasFlag (.cancelled ||| f) .rejected = false := by decide
        have valid := (replacement_isValid (p := p) (v := v) (g := g) (u := u)
          (wf.mem_of_find found).2.2).mpr ⟨hp, hv⟩
        refine ⟨kept _ (sub.flags_mem valid), ?_⟩
        intro free
        obtain ⟨rest, b₁, -, hm, -, -⟩ := wf.modifyOrder_apart found hp hv (by
          intro r hr
          have top : b.sellOrders.top = some r := by
            rw [PriorityQueueAdapter.top_eq_head?]
            exact hr
          exact free r top) g u
        simp only [step, hm, Except.map, Except.ok.injEq, Prod.mk.injEq] at answer
        exact answer.1.symm

theorem answered_flags_moved_bid :
    let b := (replay [.newOrder (.plain .buy 1 1 100 10)]).2
    ∃ flags b', b.step (.modifyOrder (Order.pack 1 1) 90 7 ⟨0, 5⟩ ⟨0, 0⟩) = .ok (flags, b') ∧
      flags.hasFlag .rejected = false ∧ flags = .cancelled ||| .accepted := by
  intro b
  have bid : b.buyOrders.find (Order.pack 1 1) = .ok (some (.plain .buy 1 1 100 10)) := by
    decide +kernel
  have noAsk : b.getTopOfBook.ask = none := by decide +kernel
  have answers : ((b.step (.modifyOrder (Order.pack 1 1) 90 7 ⟨0, 5⟩ ⟨0, 0⟩)).map
      Prod.fst).toOption.isSome = true := by decide +kernel
  cases answer : b.step (.modifyOrder (Order.pack 1 1) 90 7 ⟨0, 5⟩ ⟨0, 0⟩) with
  | error e =>
      rw [answer] at answers
      cases answers
  | ok r =>
      have flags := ((answered_flags (replay_run [.newOrder (.plain .buy 1 1 100 10)])
        answer).2.2 _ _ _ _ _ rfl).2 _ bid (by decide) (by decide)
      refine ⟨r.1, r.2, rfl, flags.1, flags.2 ?_⟩
      intro ask hask
      rw [noAsk] at hask
      cases hask

/-- A bid moved to another price, and one moved to volume zero. -/
theorem modify_flags_invalid :
    let run := replay [.newOrder (.plain .buy 1 1 100 10)]
    BookRun run.1 run.2 ∧
      (run.2.step (.modifyOrder (Order.pack 1 1) 90 7 ⟨0, 5⟩ ⟨0, 0⟩)).map Prod.fst =
        .ok (.cancelled ||| .accepted) ∧
      ExecFlags.isValid (.cancelled ||| .accepted) = false ∧
      (run.2.step (.modifyOrder (Order.pack 1 1) 90 0 ⟨0, 5⟩ ⟨0, 0⟩)).map Prod.fst =
        .ok (.cancelled ||| .rejected) ∧
      ExecFlags.isValid (.cancelled ||| .rejected) = false := by
  intro run
  exact ⟨replay_run _, by decide +kernel, by decide, by decide +kernel, by decide⟩

end FastLittleMarket.OrderBook
