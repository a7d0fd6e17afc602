import Mathlib.Logic.Basic

/-!
Calls that may throw and keep the state they reached: how a sequence of two ends, by
how its first part ends.
-/

namespace FastLittleMarket.Call

universe u

variable {ε σ α β : Type u} {x : EStateM ε σ α} {f : α → EStateM ε σ β} {s s' : σ}

theorem bind_ok {a : α} (h : x.run s = .ok a s') : (x >>= f).run s = (f a).run s' := by
  simp only [EStateM.run, bind, EStateM.bind] at h ⊢
  rw [h]

theorem bind_error {e : ε} (h : x.run s = .error e s') : (x >>= f).run s = .error e s' := by
  simp only [EStateM.run, bind, EStateM.bind] at h ⊢
  rw [h]

theorem bind_get {f : σ → EStateM ε σ β} : (get >>= f).run s = (f s).run s := rfl

theorem bind_modify {g : σ → σ} {f : PUnit → EStateM ε σ β} :
    (modify g >>= f).run s = (f ⟨⟩).run (g s) := rfl

theorem exists_of_bind_ok {b : β} {t : σ} (h : (x >>= f).run s = .ok b t) :
    ∃ a u, x.run s = .ok a u ∧ (f a).run u = .ok b t := by
  cases first : x.run s with
  | ok a u =>
      rw [bind_ok first] at h
      exact ⟨a, u, rfl, h⟩
  | error e u =>
      rw [bind_error first] at h
      cases h

/-- The state in which a call ends. -/
def left : EStateM.Result ε σ α → σ
  | .ok _ s => s
  | .error _ s => s

/-- Whatever way the call ends, it keeps the relation to its initial state. -/
def Keeps (R : σ → σ → Prop) (x : EStateM ε σ α) : Prop := ∀ s, R s (left (x.run s))

variable {R : σ → σ → Prop}

theorem Keeps.ok (h : Keeps R x) {a : α} (ends : x.run s = .ok a s') : R s s' := by
  have kept := h s
  rwa [ends] at kept

theorem Keeps.error (h : Keeps R x) {e : ε} (ends : x.run s = .error e s') : R s s' := by
  have kept := h s
  rwa [ends] at kept

theorem Keeps.bind (trans : ∀ {s t u}, R s t → R t u → R s u) (hx : Keeps R x)
    (hf : ∀ a, Keeps R (f a)) : Keeps R (x >>= f) := by
  intro s
  cases h : x.run s with
  | ok a u =>
      rw [bind_ok h]
      exact trans (hx.ok h) (hf a u)
  | error e u =>
      rw [bind_error h]
      exact hx.error h

theorem Keeps.modify {g : σ → σ} (h : ∀ s, R s (g s)) :
    Keeps R (modify g : EStateM ε σ PUnit) := fun s => h s

end FastLittleMarket.Call
