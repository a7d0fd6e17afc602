import Mathlib.Data.List.Dedup
import Mathlib.Data.List.Perm.Subperm

/-!
Bounded lists with distinct keys, in the order of first use. Putting an entry
replaces the one with its key in place, merged by a given function, or appends it
while there is room. The bound and the distinctness of keys are fields.
-/

namespace FastLittleMarket

@[ext]
structure KeyedList {α κ : Type*} (key : α → κ) (capacity : Nat) where
  items : List α
  bounded : items.length ≤ capacity
  distinct : (items.map key).Nodup

/-- How a put entry takes over from the stored one without changing the key. -/
structure Merge {α κ : Type*} (key : α → κ) where
  merge : α → α → α
  key_merge : ∀ old new, key (merge old new) = key new

namespace KeyedList

variable {α κ : Type*} {key : α → κ} {capacity : Nat}

def empty : KeyedList key capacity := ⟨[], Nat.zero_le _, .nil⟩

instance : Inhabited (KeyedList key capacity) := ⟨empty⟩

def keys (l : KeyedList key capacity) : List κ := l.items.map key

@[simp] theorem keys_empty : (empty : KeyedList key capacity).keys = [] := rfl

variable [DecidableEq κ]

def find (l : KeyedList key capacity) (k : κ) : Option α := l.items.find? fun x => key x = k

@[simp] theorem find_empty (k : κ) : (empty : KeyedList key capacity).find k = none := rfl

/-- `x` takes the place of the entry with its key. -/
def replace (m : Merge key) (x : α) (items : List α) : List α :=
  items.map fun y => if key y = key x then m.merge y x else y

theorem map_key_replace (m : Merge key) (x : α) (items : List α) :
    (replace m x items).map key = items.map key := by
  simp only [replace, List.map_map]
  apply List.map_congr_left
  intro y _
  simp only [Function.comp_apply]
  split
  · rename_i same
    rw [m.key_merge, same]
  · rfl

def put (m : Merge key) (l : KeyedList key capacity) (x : α) :
    Option (KeyedList key capacity) :=
  if known : key x ∈ l.keys then
    some
      { items := replace m x l.items
        bounded := by simpa [replace] using l.bounded
        distinct := by rw [map_key_replace]; exact l.distinct }
  else if room : l.items.length < capacity then
    some
      { items := l.items ++ [x]
        bounded := by
          rw [List.length_append, List.length_singleton]
          exact room
        distinct := by
          rw [List.map_append, List.map_singleton, List.nodup_append]
          refine ⟨l.distinct, List.nodup_singleton _, ?_⟩
          intro a ha b hb same
          rw [List.mem_singleton] at hb
          exact known (hb ▸ same ▸ ha) }
  else none

variable {m : Merge key} {l l' : KeyedList key capacity} {x : α}

theorem put_eq_none : put m l x = none ↔ key x ∉ l.keys ∧ capacity ≤ l.items.length := by
  unfold put
  split_ifs <;> simp_all

theorem keys_put (h : put m l x = some l') :
    l'.keys = if key x ∈ l.keys then l.keys else l.keys ++ [key x] := by
  unfold put at h
  split_ifs at h with known room
  · obtain rfl := Option.some.inj h
    rw [if_pos known]
    exact map_key_replace m x l.items
  · obtain rfl := Option.some.inj h
    rw [if_neg known]
    simp [keys]

theorem mem_keys_iff {k : κ} : k ∈ l.keys ↔ ∃ x, l.find k = some x := by
  unfold keys find
  rw [← Option.isSome_iff_exists, List.find?_isSome]
  simp

theorem find_eq_none {k : κ} : l.find k = none ↔ k ∉ l.keys := by
  rw [mem_keys_iff, ← Option.isSome_iff_exists, Option.not_isSome_iff_eq_none]

theorem key_of_find {k : κ} {y : α} (h : l.find k = some y) : key y = k := by
  have held := List.find?_some h
  exact of_decide_eq_true held

theorem mem_of_find {k : κ} {y : α} (h : l.find k = some y) : y ∈ l.items :=
  List.mem_of_find?_eq_some h

theorem find?_replace {items : List α} {k : κ} :
    (replace m x items).find? (fun y => key y = k) =
      if key x = k then (items.find? fun y => key y = k).map fun y => m.merge y x
      else items.find? fun y => key y = k := by
  induction items with
  | nil => simp [replace]
  | cons y items ih =>
      simp only [replace, List.map_cons] at ih ⊢
      by_cases hy : key y = key x
      · rw [if_pos hy]
        by_cases hk : key x = k
        · simp [m.key_merge, hy, hk]
        · simp [m.key_merge, hy, hk, ih]
      · rw [if_neg hy]
        by_cases hk : key x = k
        · have other : key y ≠ k := fun same => hy (same.trans hk.symm)
          simpa [hk, other] using ih
        · by_cases hyk : key y = k
          · simp [hk, hyk]
          · simpa [hk, hyk] using ih

/-- What a lookup finds after a put. -/
theorem find_put (h : put m l x = some l') (k : κ) :
    l'.find k =
      if key x = k then some (((l.find k).map fun y => m.merge y x).getD x) else l.find k := by
  unfold put at h
  split_ifs at h with known room
  · obtain rfl := Option.some.inj h
    obtain ⟨y, hy⟩ := mem_keys_iff.mp known
    simp only [find, find?_replace]
    split
    · rename_i same
      have found : l.items.find? (fun z => key z = k) = some y := by
        rw [← same]
        exact hy
      rw [found]
      rfl
    · rfl
  · obtain rfl := Option.some.inj h
    have absent := find_eq_none.mpr known
    simp only [find, List.find?_append]
    split
    · rename_i same
      have missing : l.items.find? (fun z => key z = k) = none := by
        rw [← same]
        exact absent
      simp [missing, same]
    · rename_i other
      simp [other]

theorem find_put_of_ne (h : put m l x = some l') {k : κ} (hne : key x ≠ k) :
    l'.find k = l.find k := by
  rw [find_put h, if_neg hne]

/-- A put whose key is one of `bound` succeeds when these are few and cover the keys
in use. -/
theorem exists_put (bound : List κ) (few : bound.length ≤ capacity) (covered : l.keys ⊆ bound)
    (hx : key x ∈ bound) : ∃ l', put m l x = some l' ∧ l'.keys ⊆ bound := by
  cases h : put m l x with
  | none =>
      obtain ⟨fresh, full⟩ := put_eq_none.mp h
      have distinct : (key x :: l.keys).Nodup := List.nodup_cons.mpr ⟨fresh, l.distinct⟩
      have sub : key x :: l.keys ⊆ bound := List.cons_subset.mpr ⟨hx, covered⟩
      have count := (distinct.subperm sub).length_le
      simp only [List.length_cons, keys, List.length_map] at count
      omega
  | some l' =>
      refine ⟨l', rfl, ?_⟩
      rw [keys_put h]
      split
      · exact covered
      · exact List.append_subset.mpr ⟨covered, by simpa using hx⟩

/-- Whether an entry can be put depends on its key alone. -/
theorem exists_put_of_key {y : α} (h : put m l y = some l') (same : key x = key y) :
    ∃ l₁, put m l x = some l₁ := by
  cases hx : put m l x with
  | some l₁ => exact ⟨l₁, rfl⟩
  | none =>
      have refused : put m l y = none := by
        rw [put_eq_none, ← same]
        exact put_eq_none.mp hx
      rw [refused] at h
      cases h

theorem replace_replace {y : α} (same : key x = key y)
    (absorbs : ∀ z, m.merge (m.merge z x) y = m.merge z y) (items : List α) :
    replace m y (replace m x items) = replace m y items := by
  simp only [replace, List.map_map]
  apply List.map_congr_left
  intro z _
  simp only [Function.comp_apply]
  by_cases hz : key z = key x
  · rw [if_pos hz, if_pos ((m.key_merge z x).trans same), if_pos (hz.trans same), absorbs]
  · rw [if_neg hz]

theorem replace_eq_self (fresh : key x ∉ l.keys) : replace m x l.items = l.items := by
  unfold replace
  rw [List.map_congr_left (g := id), List.map_id]
  intro y hy
  have other : key y ≠ key x := fun same => fresh (same ▸ List.mem_map_of_mem hy)
  rw [if_neg other, id]

/-- An entry that takes nothing from an earlier one under its key makes that one's put
superfluous. -/
theorem put_put {y : α} {l₁ l₂ : KeyedList key capacity} (hx : put m l x = some l₁)
    (hy : put m l y = some l₂) (same : key x = key y)
    (absorbs : ∀ z, m.merge (m.merge z x) y = m.merge z y) (takes : m.merge x y = y) :
    put m l₁ y = some l₂ := by
  have known : key y ∈ l₁.keys := by
    rw [keys_put hx, ← same]
    split
    · assumption
    · exact List.mem_append_right _ (List.mem_singleton_self _)
  have items : replace m y l₁.items = l₂.items := by
    unfold put at hx hy
    by_cases stored : key x ∈ l.keys
    · rw [dif_pos stored] at hx
      rw [dif_pos (same ▸ stored)] at hy
      obtain rfl := Option.some.inj hx
      obtain rfl := Option.some.inj hy
      exact replace_replace same absorbs l.items
    · rw [dif_neg stored] at hx
      rw [dif_neg (same ▸ stored)] at hy
      split at hx
      · rename_i room
        rw [dif_pos room] at hy
        obtain rfl := Option.some.inj hx
        obtain rfl := Option.some.inj hy
        have unchanged := replace_eq_self (m := m) (l := l) (x := y) (same ▸ stored)
        have last : replace m y [x] = [y] := by simp [replace, same, takes]
        have split : replace m y (l.items ++ [x]) = replace m y l.items ++ replace m y [x] :=
          List.map_append
        rw [split, unchanged, last]
      · cases hx
  unfold put
  rw [dif_pos known]
  exact congrArg some (KeyedList.ext items)

def putAll (m : Merge key) (l : KeyedList key capacity) :
    List α → Option (KeyedList key capacity)
  | [] => some l
  | x :: xs =>
      match put m l x with
      | none => none
      | some l' => putAll m l' xs

theorem putAll_append (xs ys : List α) (l : KeyedList key capacity) :
    putAll m l (xs ++ ys) = (putAll m l xs).bind fun l' => putAll m l' ys := by
  induction xs generalizing l with
  | nil => rfl
  | cons x xs ih =>
      simp only [List.cons_append, putAll]
      cases put m l x with
      | none => rfl
      | some l' => exact ih l'

theorem exists_of_putAll_append {xs ys : List α} {l l' : KeyedList key capacity}
    (h : putAll m l (xs ++ ys) = some l') :
    ∃ l₁, putAll m l xs = some l₁ ∧ putAll m l₁ ys = some l' := by
  rwa [putAll_append, Option.bind_eq_some_iff] at h

theorem putAll_singleton {x : α} {l : KeyedList key capacity} :
    putAll m l [x] = put m l x := by
  rw [putAll]
  split <;> simp_all [putAll]

theorem exists_putAll (bound : List κ) (few : bound.length ≤ capacity) {xs : List α}
    (hxs : ∀ x ∈ xs, key x ∈ bound) {l : KeyedList key capacity} (covered : l.keys ⊆ bound) :
    ∃ l', putAll m l xs = some l' := by
  induction xs generalizing l with
  | nil => exact ⟨l, rfl⟩
  | cons x xs ih =>
      obtain ⟨l₁, h₁, covered₁⟩ := exists_put (m := m) bound few covered (hxs x (by simp))
      obtain ⟨l', h'⟩ := ih (fun y hy => hxs y (by simp [hy])) covered₁
      exact ⟨l', by simp only [putAll, h₁, h']⟩

/-- The keys `ks` in the order of first use, behind those in `seen`. -/
def firstUses (seen ks : List κ) : List κ :=
  ks.foldl (fun seen k => if k ∈ seen then seen else seen ++ [k]) seen

theorem keys_putAll {xs : List α} {l l' : KeyedList key capacity}
    (h : putAll m l xs = some l') : l'.keys = firstUses l.keys (xs.map key) := by
  induction xs generalizing l with
  | nil =>
      obtain rfl := Option.some.inj h
      rfl
  | cons x xs ih =>
      simp only [putAll] at h
      split at h
      · cases h
      · rename_i l₁ h₁
        rw [ih h, keys_put h₁]
        rfl

theorem mem_firstUses {ks : List κ} : ∀ {seen : List κ} {k : κ},
    k ∈ firstUses seen ks ↔ k ∈ seen ∨ k ∈ ks := by
  induction ks with
  | nil => simp [firstUses]
  | cons c ks ih =>
      intro seen k
      change k ∈ firstUses (if c ∈ seen then seen else seen ++ [c]) ks ↔ _
      rw [ih]
      split
      · rename_i known
        rw [List.mem_cons]
        constructor
        · rintro (h | h)
          · exact .inl h
          · exact .inr (.inr h)
        · rintro (h | rfl | h)
          · exact .inl h
          · exact .inl known
          · exact .inr h
      · simp [or_assoc]

/-- All of `xs` can be put into the empty list just when their distinct keys fit. -/
theorem exists_putAll_iff {xs : List α} :
    (∃ l' : KeyedList key capacity, putAll m empty xs = some l') ↔
      (xs.map key).dedup.length ≤ capacity := by
  constructor
  · rintro ⟨l', h⟩
    have distinct : l'.keys.Nodup := l'.distinct
    have same : l'.keys.Perm (xs.map key).dedup := by
      rw [List.perm_ext_iff_of_nodup distinct (List.nodup_dedup _)]
      intro k
      rw [keys_putAll h, mem_firstUses, List.mem_dedup]
      simp
    have count : l'.keys.length = l'.items.length := List.length_map _
    rw [← same.length_eq, count]
    exact l'.bounded
  · intro few
    refine exists_putAll (xs.map key).dedup few ?_ (by simp)
    intro x hx
    exact List.mem_dedup.mpr (List.mem_map.mpr ⟨x, hx, rfl⟩)

/-- The last entry with key `k`. -/
def lastOf (key : α → κ) (k : κ) (xs : List α) : Option α :=
  xs.reverse.find? fun x => key x = k

theorem lastOf_cons (key : α → κ) (k : κ) (x : α) (xs : List α) :
    lastOf key k (x :: xs) = (lastOf key k xs).or (if key x = k then some x else none) := by
  simp only [lastOf, List.reverse_cons, List.find?_append]
  by_cases hk : key x = k <;> simp [hk]

theorem lastOf_map {β : Type*} (key : β → κ) (g : α → β) (k : κ) (xs : List α) :
    lastOf key k (xs.map g) = (lastOf (key ∘ g) k xs).map g := by
  unfold lastOf
  rw [← List.map_reverse, List.find?_map]
  rfl

theorem mem_of_lastOf {key : α → κ} {k : κ} {xs : List α} {x : α}
    (h : lastOf key k xs = some x) : x ∈ xs ∧ key x = k := by
  have found := List.find?_some h
  exact ⟨List.mem_reverse.mp (List.mem_of_find?_eq_some h), by simpa using found⟩

theorem lastOf_eq_none {key : α → κ} {k : κ} {xs : List α} (h : ∀ x ∈ xs, key x ≠ k) :
    lastOf key k xs = none := by
  unfold lastOf
  rw [List.find?_eq_none]
  intro x hx
  simpa using h x (List.mem_reverse.mp hx)

theorem lastOf_concat (key : α → κ) (x : α) (xs : List α) :
    lastOf key (key x) (xs ++ [x]) = some x := by
  simp [lastOf]

theorem lastOf_of_split {key : α → κ} {x : α} {l r : List α} (others : ∀ y ∈ r, key y ≠ key x) :
    lastOf key (key x) (l ++ x :: r) = some x := by
  induction l with
  | nil => rw [List.nil_append, lastOf_cons, lastOf_eq_none others, Option.none_or, if_pos rfl]
  | cons y l ih => rw [List.cons_append, lastOf_cons, ih, Option.some_or]

/-- Entries under other keys leave a lookup as it is. -/
theorem find_putAll_of_notMem {xs : List α} {l l' : KeyedList key capacity}
    (h : putAll m l xs = some l') {k : κ} (others : ∀ x ∈ xs, key x ≠ k) :
    l'.find k = l.find k := by
  induction xs generalizing l with
  | nil =>
      obtain rfl := Option.some.inj h
      rfl
  | cons x xs ih =>
      simp only [putAll] at h
      split at h
      · cases h
      · rename_i l₁ h₁
        rw [ih h fun y hy => others y (by simp [hy]), find_put_of_ne h₁ (others x (by simp))]

/-- A property of the entries under a key that merging keeps. -/
theorem find_putAll_of_forall {P : α → Prop} (keeps : ∀ y x, P y → P x → P (m.merge y x))
    {xs : List α} {l l' : KeyedList key capacity} (h : putAll m l xs = some l') {k : κ}
    (base : ∀ y, l.find k = some y → P y) (new : ∀ x ∈ xs, key x = k → P x) :
    ∀ y, l'.find k = some y → P y := by
  induction xs generalizing l with
  | nil =>
      obtain rfl := Option.some.inj h
      exact base
  | cons x xs ih =>
      simp only [putAll] at h
      split at h
      · cases h
      · rename_i l₁ h₁
        refine ih h (fun y hy => ?_) fun z hz => new z (by simp [hz])
        rw [find_put h₁] at hy
        split at hy
        · rename_i same
          have px := new x (by simp) same
          cases old : l.find k with
          | none =>
              rw [old] at hy
              obtain rfl := Option.some.inj hy
              exact px
          | some z =>
              rw [old] at hy
              obtain rfl := Option.some.inj hy
              exact keeps z x (base z old) px
        · exact base y hy

/-- What merging takes from the new entry is, after any number of puts, that of the
last one. -/
theorem find_putAll {β : Type*} (f : α → β) (hf : ∀ y x, f (m.merge y x) = f x) {xs : List α}
    {l l' : KeyedList key capacity} (h : putAll m l xs = some l') (k : κ) :
    (l'.find k).map f = ((lastOf key k xs).or (l.find k)).map f := by
  induction xs generalizing l with
  | nil =>
      obtain rfl := Option.some.inj h
      rfl
  | cons x xs ih =>
      simp only [putAll] at h
      split at h
      · cases h
      · rename_i l₁ h₁
        rw [ih h, lastOf_cons]
        cases lastOf key k xs with
        | some y => simp
        | none =>
            rw [Option.none_or, Option.none_or, find_put h₁]
            by_cases hk : key x = k
            · rw [if_pos hk, if_pos hk]
              cases l.find k with
              | none => rfl
              | some y => simp [hf]
            · rw [if_neg hk, if_neg hk, Option.none_or]

end KeyedList

end FastLittleMarket
