import Mathlib.Data.List.Forall2
import Mathlib.Data.List.Sort
import Mathlib.Data.List.Nodup

/-!
Ordered bags with stable handles: the node-based sorted container of the C++
standard library. An insertion places the value behind every equivalent one and
yields a handle that designates its node until that node is erased. Handles are
never reused, so a handle whose node is gone designates nothing.

The order, the distinctness of live handles and the freshness of the next one
are fields: no bag breaks them.
-/

namespace FastLittleMarket

/-- A strict weak order given by its Boolean comparison. -/
structure Comparator (α : Type*) where
  lt : α → α → Bool
  asymm : ∀ a b, lt a b = true → lt b a = false
  connected : ∀ a b c, lt a c = true → lt a b = true ∨ lt b c = true

namespace Comparator

variable {α : Type*} (C : Comparator α)

theorem irrefl (a : α) : C.lt a a = false := by
  cases h : C.lt a a with
  | false => rfl
  | true => simpa [h] using C.asymm a a h

theorem notLt_trans {a b c : α} (hab : C.lt a b = false) (hbc : C.lt b c = false) :
    C.lt a c = false := by
  cases hac : C.lt a c with
  | false => rfl
  | true =>
      rcases C.connected a b c hac with h | h
      · exact absurd h (by simp [hab])
      · exact absurd h (by simp [hbc])

end Comparator

/-- Insertion at the upper bound keeps a list ordered. -/
theorem pairwise_orderedInsert {α : Type*} (C : Comparator α) (x : α) {l : List α}
    (h : l.Pairwise fun a b => C.lt b a = false) :
    (l.orderedInsert (fun a b => C.lt a b = true) x).Pairwise fun a b => C.lt b a = false := by
  induction l with
  | nil => simp
  | cons y ys ih =>
      obtain ⟨hy, hys⟩ := List.pairwise_cons.mp h
      rw [List.orderedInsert_cons]
      split
      · rename_i hxy
        refine List.pairwise_cons.mpr ⟨?_, h⟩
        intro z hz
        rcases List.mem_cons.mp hz with rfl | hz
        · exact C.asymm x z hxy
        · exact C.notLt_trans (hy z hz) (C.asymm x y hxy)
      · rename_i hxy
        refine List.pairwise_cons.mpr ⟨?_, ih hys⟩
        intro z hz
        rcases (List.mem_orderedInsert _).mp hz with rfl | hz
        · simpa using hxy
        · exact hy z hz

/-- Insertions at places that compare alike keep two lists related. -/
theorem forall₂_orderedInsert {α β : Type*} {R : α → β → Prop} {r : α → α → Prop}
    {r' : β → β → Prop} [DecidableRel r] [DecidableRel r']
    (alike : ∀ a a' b b', R a a' → R b b' → (r a b ↔ r' a' b')) {x : α} {x' : β}
    (hx : R x x') {l : List α} {l' : List β} (h : List.Forall₂ R l l') :
    List.Forall₂ R (l.orderedInsert r x) (l'.orderedInsert r' x') := by
  induction h with
  | nil => exact .cons hx .nil
  | @cons y y' l l' hy hl ih =>
      rw [List.orderedInsert_cons, List.orderedInsert_cons]
      by_cases before : r x y
      · rw [if_pos before, if_pos ((alike x x' y y' hx hy).mp before)]
        exact .cons hx (.cons hy hl)
      · rw [if_neg before, if_neg (mt (alike x x' y y' hx hy).mpr before)]
        exact .cons hy ih

structure OrderedBag {α : Type*} (C : Comparator α) where
  nodes : List (Nat × α)
  fresh : Nat
  sorted : nodes.Pairwise fun a b => C.lt b.2 a.2 = false
  handles : (nodes.map Prod.fst).Nodup
  below : ∀ n ∈ nodes, n.1 < fresh

namespace OrderedBag

variable {α : Type*} {C : Comparator α}

def empty : OrderedBag C where
  nodes := []
  fresh := 0
  sorted := .nil
  handles := .nil
  below := by simp

instance : Inhabited (OrderedBag C) := ⟨empty⟩

/-- The order on nodes ignores handles. -/
def onValue (C : Comparator α) : Comparator (Nat × α) where
  lt a b := C.lt a.2 b.2
  asymm a b := C.asymm a.2 b.2
  connected a b c := C.connected a.2 b.2 c.2

def values (b : OrderedBag C) : List α := b.nodes.map Prod.snd

def begin? (b : OrderedBag C) : Option (Nat × α) := b.nodes.head?

def deref (b : OrderedBag C) (h : Nat) : Option α := b.nodes.lookup h

def insert (b : OrderedBag C) (x : α) : OrderedBag C where
  nodes := b.nodes.orderedInsert (fun m n => C.lt m.2 n.2 = true) (b.fresh, x)
  fresh := b.fresh + 1
  sorted := pairwise_orderedInsert (onValue C) (b.fresh, x) b.sorted
  handles := by
    have perm := (List.perm_orderedInsert (fun m n : Nat × α => C.lt m.2 n.2 = true)
      (b.fresh, x) b.nodes).map Prod.fst
    refine perm.nodup_iff.mpr (List.nodup_cons.mpr ⟨?_, b.handles⟩)
    intro hmem
    obtain ⟨n, hn, hfresh⟩ := List.mem_map.mp hmem
    have := b.below n hn
    simp only at hfresh
    omega
  below := by
    intro n hn
    rcases (List.mem_orderedInsert _).mp hn with rfl | hn
    · exact Nat.lt_succ_self _
    · exact Nat.lt_succ_of_lt (b.below n hn)

def erase (b : OrderedBag C) (h : Nat) : OrderedBag C where
  nodes := b.nodes.filter fun n => n.1 ≠ h
  fresh := b.fresh
  sorted := b.sorted.filter _
  handles := (b.handles.sublist (List.Sublist.map Prod.fst List.filter_sublist))
  below n hn := b.below n (List.mem_of_mem_filter hn)

theorem values_sorted (b : OrderedBag C) :
    b.values.Pairwise fun x y => C.lt y x = false :=
  List.pairwise_map.mpr b.sorted

@[simp] theorem values_empty : (empty : OrderedBag C).values = [] := rfl

@[simp] theorem nodes_empty : (empty : OrderedBag C).nodes = [] := rfl

theorem values_insert (b : OrderedBag C) (x : α) :
    (b.insert x).values = b.values.orderedInsert (fun m n => C.lt m n = true) x :=
  List.map_orderedInsert _ _ Prod.snd b.nodes (b.fresh, x) (fun _ _ => Iff.rfl) (fun _ _ => Iff.rfl)

theorem mem_nodes_insert {b : OrderedBag C} {x : α} {n : Nat × α} :
    n ∈ (b.insert x).nodes ↔ n = (b.fresh, x) ∨ n ∈ b.nodes :=
  List.mem_orderedInsert _

theorem mem_nodes_erase {b : OrderedBag C} {h : Nat} {n : Nat × α} :
    n ∈ (b.erase h).nodes ↔ n ∈ b.nodes ∧ n.1 ≠ h := by
  simp [erase]

private theorem lookup_eq_some_iff {l : List (Nat × α)} (hl : (l.map Prod.fst).Nodup)
    {h : Nat} {x : α} : l.lookup h = some x ↔ (h, x) ∈ l := by
  induction l with
  | nil => simp
  | cons n l ih =>
      obtain ⟨k, y⟩ := n
      obtain ⟨hk, hl⟩ := List.nodup_cons.mp hl
      rw [List.lookup_cons, List.mem_cons]
      by_cases hkh : h = k
      · subst hkh
        have gone : (h, x) ∉ l := fun hm => hk (List.mem_map.mpr ⟨_, hm, rfl⟩)
        simp [gone, eq_comm]
      · have hbeq : (h == k) = false := by simp [hkh]
        simp [hbeq, ih hl, hkh]

theorem deref_eq_some {b : OrderedBag C} {h : Nat} {x : α} :
    b.deref h = some x ↔ (h, x) ∈ b.nodes :=
  lookup_eq_some_iff b.handles

theorem deref_lt_fresh {b : OrderedBag C} {h : Nat} {x : α} (hx : b.deref h = some x) :
    h < b.fresh :=
  b.below _ (deref_eq_some.mp hx)

theorem mem_values_of_deref {b : OrderedBag C} {h : Nat} {x : α} (hx : b.deref h = some x) :
    x ∈ b.values :=
  List.mem_map.mpr ⟨_, deref_eq_some.mp hx, rfl⟩

theorem exists_deref_of_mem_values {b : OrderedBag C} {x : α} (hx : x ∈ b.values) :
    ∃ h, b.deref h = some x := by
  obtain ⟨⟨h, y⟩, hn, rfl⟩ := List.mem_map.mp hx
  exact ⟨h, deref_eq_some.mpr hn⟩

theorem deref_insert_fresh (b : OrderedBag C) (x : α) :
    (b.insert x).deref b.fresh = some x :=
  deref_eq_some.mpr (mem_nodes_insert.mpr (.inl rfl))

/-- An insertion leaves every node that was live where its handle finds it. -/
theorem deref_insert_of_ne (b : OrderedBag C) (x : α) {h : Nat} (hne : h ≠ b.fresh) :
    (b.insert x).deref h = b.deref h := by
  apply Option.ext
  intro y
  rw [deref_eq_some, deref_eq_some, mem_nodes_insert]
  simp [hne]

theorem deref_insert_of_deref {b : OrderedBag C} (x : α) {h : Nat} {y : α}
    (live : b.deref h = some y) : (b.insert x).deref h = some y := by
  rw [deref_insert_of_ne _ _ (Nat.ne_of_lt (deref_lt_fresh live)), live]

theorem deref_erase_self (b : OrderedBag C) (h : Nat) : (b.erase h).deref h = none := by
  cases hx : (b.erase h).deref h with
  | none => rfl
  | some x => exact absurd rfl (mem_nodes_erase.mp (deref_eq_some.mp hx)).2

theorem deref_erase_of_ne (b : OrderedBag C) {h k : Nat} (hne : k ≠ h) :
    (b.erase h).deref k = b.deref k := by
  apply Option.ext
  intro y
  rw [deref_eq_some, deref_eq_some, mem_nodes_erase]
  simp [hne]

theorem deref_of_deref_erase {b : OrderedBag C} {h k : Nat} {x : α}
    (hx : (b.erase h).deref k = some x) : b.deref k = some x :=
  deref_eq_some.mpr (mem_nodes_erase.mp (deref_eq_some.mp hx)).1

/-- Erasing what was just inserted gives the old nodes back, whatever they tie with. -/
theorem nodes_erase_insert (b : OrderedBag C) (x : α) :
    ((b.insert x).erase b.fresh).nodes = b.nodes := by
  have older : ∀ l : List (Nat × α), l ⊆ b.nodes →
      l.filter (fun n => n.1 ≠ b.fresh) = l := by
    intro l sub
    apply List.filter_eq_self.mpr
    intro n hn
    have := b.below n (sub hn)
    simp only [ne_eq, decide_eq_true_eq]
    omega
  simp only [erase, insert]
  rw [List.orderedInsert_eq_take_drop, List.filter_append, List.filter_cons_of_neg (by simp),
    older _ (List.takeWhile_subset _), older _ (List.dropWhile_subset _),
    List.takeWhile_append_dropWhile]

private theorem filter_perm {l : List (Nat × α)} (hl : (l.map Prod.fst).Nodup) {h : Nat} {x : α}
    (hx : (h, x) ∈ l) : (l.map Prod.snd).Perm
      (x :: (l.filter fun n => n.1 ≠ h).map Prod.snd) := by
  induction l with
  | nil => simp at hx
  | cons n l ih =>
      obtain ⟨k, y⟩ := n
      obtain ⟨hk, hl⟩ := List.nodup_cons.mp hl
      rcases List.mem_cons.mp hx with heq | hx
      · cases heq
        have same : l.filter (fun n => n.1 ≠ h) = l := by
          apply List.filter_eq_self.mpr
          intro n hn
          have : n.1 ≠ h := fun e => hk (List.mem_map.mpr ⟨n, hn, e⟩)
          simpa using this
        rw [List.filter_cons_of_neg (by simp), same]
        exact List.Perm.refl _
      · have hne : k ≠ h := fun e => hk (List.mem_map.mpr ⟨_, hx, e.symm⟩)
        rw [List.filter_cons_of_pos (by simpa using hne)]
        exact ((ih hl hx).cons y).trans (List.Perm.swap _ _ _)

theorem values_erase_perm {b : OrderedBag C} {h : Nat} {x : α} (hx : b.deref h = some x) :
    b.values.Perm (x :: (b.erase h).values) :=
  filter_perm b.handles (deref_eq_some.mp hx)

/-- Erasing the first node leaves the rest in place. -/
theorem values_erase_begin {b : OrderedBag C} {n : Nat × α} (hn : b.begin? = some n) :
    b.values = n.2 :: (b.erase n.1).values := by
  obtain ⟨l, hl⟩ := List.head?_eq_some_iff.mp hn
  have hnodup := b.handles
  rw [hl] at hnodup
  obtain ⟨hk, -⟩ := List.nodup_cons.mp hnodup
  have same : l.filter (fun m => m.1 ≠ n.1) = l := by
    apply List.filter_eq_self.mpr
    intro m hm
    have : m.1 ≠ n.1 := fun e => hk (List.mem_map.mpr ⟨m, hm, e⟩)
    simpa using this
  simp only [values, erase, hl]
  rw [List.filter_cons_of_neg (by simp), same]
  rfl

theorem begin?_deref {b : OrderedBag C} {n : Nat × α} (hn : b.begin? = some n) :
    b.deref n.1 = some n.2 :=
  deref_eq_some.mpr (List.mem_of_mem_head? (by simpa [begin?] using hn))

theorem begin?_eq_none {b : OrderedBag C} : b.begin? = none ↔ b.values = [] := by
  simp [begin?, values]

end OrderedBag

end FastLittleMarket
