import Mathlib.Tactic.TypeStar

/-!
Runs of a labelled transition relation, with the steps they took.

The invariant rule comes in two forms: for what every step preserves, and for
what every step preserves that satisfies a side condition on the step.
-/

namespace FastLittleMarket

/-- One step a run took: the state before it, its label, the state after it. -/
structure Taken (σ ℓ : Type*) where
  before : σ
  label : ℓ
  after : σ

variable {σ ℓ : Type*} {step : σ → ℓ → σ → Prop} {init : σ}

inductive Run (step : σ → ℓ → σ → Prop) (init : σ) : List (Taken σ ℓ) → σ → Prop
  | start : Run step init [] init
  | snoc {ts : List (Taken σ ℓ)} {s s' : σ} {l : ℓ} (run : Run step init ts s)
      (taken : step s l s') : Run step init (ts ++ [⟨s, l, s'⟩]) s'

theorem Run.invariant_of {G : Taken σ ℓ → Prop} {I : List (Taken σ ℓ) → σ → Prop}
    (base : I [] init)
    (keeps : ∀ ts s l s', Run step init ts s → I ts s → step s l s' → G ⟨s, l, s'⟩ →
      I (ts ++ [⟨s, l, s'⟩]) s')
    {ts : List (Taken σ ℓ)} {s : σ} (run : Run step init ts s) (good : ∀ t ∈ ts, G t) :
    I ts s := by
  induction run with
  | start => exact base
  | snoc run taken ih =>
      have before := ih fun t ht => good t (List.mem_append_left _ ht)
      exact keeps _ _ _ _ run before taken (good _ (by simp))

theorem Run.invariant {I : σ → Prop} (base : I init)
    (keeps : ∀ s l s', I s → step s l s' → I s')
    {ts : List (Taken σ ℓ)} {s : σ} (run : Run step init ts s) : I s :=
  run.invariant_of (G := fun _ => True) (I := fun _ s => I s) base
    (fun _ _ _ _ _ inv taken _ => keeps _ _ _ inv taken) (fun _ _ => trivial)

/-- Where a map of states and labels carries each step of a run to a step, it carries
the run to a run. -/
theorem Run.map {τ ℓ' : Type*} {step' : τ → ℓ' → τ → Prop} (f : σ → τ) (g : σ → ℓ → ℓ')
    (carries : ∀ ts s l s', Run step init ts s → step s l s' → step' (f s) (g s l) (f s'))
    {ts : List (Taken σ ℓ)} {s : σ} (run : Run step init ts s) :
    Run step' (f init) (ts.map fun t => ⟨f t.before, g t.before t.label, f t.after⟩) (f s) := by
  induction run with
  | start => exact .start
  | snoc run taken ih =>
      rw [List.map_append]
      exact ih.snoc (carries _ _ _ _ run taken)

/-- What holds at the start, and after a step from where it holds just when the step
meets `G`, holds in every state of a run just when every step meets `G`. -/
theorem Run.forall_iff {G : Taken σ ℓ → Prop} {P : σ → Prop} (base : P init)
    (keeps : ∀ ts s l s', Run step init ts s → P s → step s l s' → (P s' ↔ G ⟨s, l, s'⟩))
    {ts : List (Taken σ ℓ)} {s : σ} (run : Run step init ts s) :
    ((∀ t ∈ ts, P t.after) → P s) ∧ ((∀ t ∈ ts, P t.after) ↔ ∀ t ∈ ts, G t) := by
  induction run with
  | start => simp [base]
  | snoc run taken ih =>
      obtain ⟨reached, earlier⟩ := ih
      simp only [List.forall_mem_append, List.forall_mem_singleton]
      refine ⟨And.right, ?_⟩
      rw [← earlier]
      exact and_congr_right fun h => keeps _ _ _ _ run (reached h) taken

/-- Where an invariant makes `P` and `G` agree on each step, and the steps that meet `G`
keep it, a run meets `P` in every step just when it meets `G` in every step. -/
theorem Run.forall_taken_iff {P G : Taken σ ℓ → Prop} {I : σ → Prop} (base : I init)
    (keeps : ∀ s l s', I s → step s l s' → G ⟨s, l, s'⟩ → I s')
    (agree : ∀ s l s', I s → step s l s' → (P ⟨s, l, s'⟩ ↔ G ⟨s, l, s'⟩))
    {ts : List (Taken σ ℓ)} {s : σ} (run : Run step init ts s) :
    (∀ t ∈ ts, P t) ↔ ∀ t ∈ ts, G t := by
  induction run with
  | start => exact ⟨fun _ _ => nofun, fun _ _ => nofun⟩
  | snoc run taken ih =>
      simp only [List.forall_mem_append, List.forall_mem_singleton, ih]
      apply and_congr_right
      intro good
      have before := run.invariant_of (I := fun _ s => I s) base
        (fun _ _ _ _ _ inv taken met => keeps _ _ _ inv taken met) good
      exact agree _ _ _ before taken

theorem Run.split {us vs : List (Taken σ ℓ)} {t : Taken σ ℓ} {s : σ}
    (run : Run step init (us ++ t :: vs) s) :
    Run step init us t.before ∧ step t.before t.label t.after := by
  generalize hts : us ++ t :: vs = ts at run
  induction run generalizing vs with
  | start => simp at hts
  | @snoc ts s s' l run taken ih =>
      rcases List.eq_nil_or_concat vs with rfl | ⟨vs, u, rfl⟩
      · obtain ⟨rfl, hlast⟩ := List.append_inj' hts rfl
        cases hlast
        exact ⟨run, taken⟩
      · have earlier : us ++ t :: vs ++ [u] = ts ++ [⟨s, l, s'⟩] := by simpa using hts
        exact ih (List.append_inj' earlier rfl).1

theorem Run.append {us vs : List (Taken σ ℓ)} {m s : σ} (run : Run step init us m)
    (later : Run step m vs s) : Run step init (us ++ vs) s := by
  induction later with
  | start =>
      rw [List.append_nil]
      exact run
  | snoc later taken ih =>
      rw [← List.append_assoc]
      exact ih.snoc taken

/-- Of what no step raises, a run has no more steps that lower it than it had to begin
with. -/
theorem Run.count_le {mine : Taken σ ℓ → Bool} {I : σ → Prop} {φ : σ → Nat}
    (keeps : ∀ s l s', I s → step s l s' → I s')
    (holds : ∀ s l s', I s → step s l s' → φ s' + (if mine ⟨s, l, s'⟩ then 1 else 0) ≤ φ s)
    {ts : List (Taken σ ℓ)} {s : σ} (run : Run step init ts s) (base : I init) :
    φ s + ts.countP mine ≤ φ init := by
  induction run with
  | start => exact Nat.le_refl _
  | snoc run taken ih =>
      have low := holds _ _ _ (run.invariant base keeps) taken
      rw [List.countP_append, List.countP_singleton]
      omega

section Replay

variable {ρ α ε : Type*} (exec : σ → ρ → Except ε (α × σ))

/-- The steps that a list of requests takes, and the state it reaches. A request that
fails is not taken. -/
def replayFrom (s : σ) : List ρ → List (Taken σ (ρ × α)) × σ
  | [] => ([], s)
  | request :: requests =>
      match exec s request with
      | .error _ => replayFrom s requests
      | .ok (answer, s') =>
          let later := replayFrom s' requests
          (⟨s, (request, answer), s'⟩ :: later.1, later.2)

theorem Run.replay {ts : List (Taken σ (ρ × α))} {s : σ}
    (run : Run (fun s label s' => exec s label.1 = .ok (label.2, s')) init ts s)
    (requests : List ρ) :
    Run (fun s label s' => exec s label.1 = .ok (label.2, s')) init
      (ts ++ (replayFrom exec s requests).1) (replayFrom exec s requests).2 := by
  induction requests generalizing ts s with
  | nil =>
      rw [replayFrom, List.append_nil]
      exact run
  | cons request requests ih =>
      unfold replayFrom
      split
      · exact ih run
      · rename_i answer s' executed
        rw [List.append_cons]
        exact ih (run.snoc executed)

theorem request_mem_of_replayFrom {s : σ} {requests : List ρ} {t : Taken σ (ρ × α)}
    (ht : t ∈ (replayFrom exec s requests).1) : t.label.1 ∈ requests := by
  induction requests generalizing s with
  | nil => cases ht
  | cons request requests ih =>
      unfold replayFrom at ht
      split at ht
      · exact List.mem_cons_of_mem request (ih ht)
      · rcases List.mem_cons.mp ht with rfl | later
        · exact List.mem_cons_self
        · exact List.mem_cons_of_mem request (ih later)

end Replay

theorem Run.step_of_mem {ts : List (Taken σ ℓ)} {t : Taken σ ℓ} {s : σ}
    (run : Run step init ts s) (ht : t ∈ ts) : step t.before t.label t.after := by
  obtain ⟨us, vs, rfl⟩ := List.append_of_mem ht
  exact run.split.2

end FastLittleMarket
