import Mathlib.Data.List.Induction
import Mathlib.Order.WellFounded

/-!
Rooted trees by their edges. A node has labelled edges to later nodes; where every node
but the root has exactly one edge into it, exactly one path leads to each.
-/

namespace FastLittleMarket

variable {ν ε : Type*}

/-- Where the path leads from a node, edge by edge. -/
def walk (edge : ν → ε → Option ν) (n : ν) (path : List ε) : Option ν := path.foldlM edge n

variable {edge : ν → ε → Option ν} {n m : ν} {e : ε} {path : List ε}

theorem walk_cons : walk edge n (e :: path) = (edge n e).bind fun m => walk edge m path := rfl

theorem walk_snoc : walk edge n (path ++ [e]) = (walk edge n path).bind fun m => edge m e := by
  unfold walk
  rw [List.foldlM_append]
  cases path.foldlM edge n with
  | none => rfl
  | some m =>
      change List.foldlM edge m [e] = edge m e
      rw [List.foldlM_cons]
      exact bind_pure _

/-- The nodes of a tree below `root`. -/
structure Rooted (edge : ν → ε → Option ν) (root : ν) (nodes : Set ν) : Prop where
  mem : root ∈ nodes
  closed : ∀ {m e n}, m ∈ nodes → edge m e = some n → n ∈ nodes
  top : ∀ m e, edge m e ≠ some root
  entered : ∀ {n}, n ∈ nodes → n ≠ root → ∃ m ∈ nodes, ∃ e, edge m e = some n
  once : ∀ {m m' e e' n}, edge m e = some n → edge m' e' = some n → m = m' ∧ e = e'

namespace Rooted

variable {root : ν} {nodes : Set ν}

theorem mem_of_walk (h : Rooted edge root nodes) (leads : walk edge root path = some n) :
    n ∈ nodes := by
  induction path using List.reverseRecOn generalizing n with
  | nil =>
      cases leads
      exact h.mem
  | append_singleton path e ih =>
      rw [walk_snoc] at leads
      obtain ⟨m, before, last⟩ := Option.bind_eq_some_iff.mp leads
      exact h.closed (ih before) last

theorem walk_inj (h : Rooted edge root nodes) {path' : List ε}
    (leads : walk edge root path = some n) (leads' : walk edge root path' = some n) :
    path = path' := by
  induction path using List.reverseRecOn generalizing n path' with
  | nil =>
      cases leads
      cases path' using List.reverseRecOn with
      | nil => rfl
      | append_singleton path' e _ =>
          rw [walk_snoc] at leads'
          obtain ⟨m, -, last⟩ := Option.bind_eq_some_iff.mp leads'
          exact absurd last (h.top m e)
  | append_singleton path e ih =>
      rw [walk_snoc] at leads
      obtain ⟨m, before, last⟩ := Option.bind_eq_some_iff.mp leads
      cases path' using List.reverseRecOn with
      | nil =>
          cases leads'
          exact absurd last (h.top m e)
      | append_singleton path' e' _ =>
          rw [walk_snoc] at leads'
          obtain ⟨m', before', last'⟩ := Option.bind_eq_some_iff.mp leads'
          obtain ⟨rfl, rfl⟩ := h.once last last'
          rw [ih before before']

/-- Where edges lead to later nodes, every node has its one path. -/
theorem existsUnique_walk [Preorder ν] [WellFoundedLT ν] (h : Rooted edge root nodes)
    (later : ∀ {m e n}, edge m e = some n → m < n) (inside : n ∈ nodes) :
    ∃! path, walk edge root path = some n := by
  have leads : ∃ path, walk edge root path = some n := by
    induction n using WellFoundedLT.induction with
    | ind n ih =>
        by_cases first : n = root
        · exact ⟨[], congrArg some first.symm⟩
        · obtain ⟨m, hm, e, last⟩ := h.entered inside first
          obtain ⟨path, before⟩ := ih m (later last) hm
          refine ⟨path ++ [e], ?_⟩
          rw [walk_snoc, before]
          exact last
  obtain ⟨path, leads⟩ := leads
  exact ⟨path, leads, fun path' leads' => h.walk_inj leads' leads⟩

end Rooted

end FastLittleMarket
