import FastLittleMarket.Fix.Groups

/-!
What an arena of field maps stands for, pointers and their lists aside: a forest of
maps, numbered as they were made, with the place of each field in the message and the
maps of the groups below it. Storing a field and opening a group act on the forest as
they should, on any arena that shows one.
-/

namespace FastLittleMarket.Fix

/-- Maps that are made one by one, below a field of an older map each. -/
structure Forest where
  size : Nat
  place : Nat → FieldTag → Option (UInt16 × UInt16)
  groups : Nat → FieldTag → List Nat
  newer : ∀ {m : Nat} {tag : FieldTag} {j : Nat}, j ∈ groups m tag → m < j ∧ j < size
  apart : ∀ {m m' : Nat} {tag tag' : FieldTag} {j : Nat}, j ∈ groups m tag →
    j ∈ groups m' tag' → m = m' ∧ tag = tag'
  nodup : ∀ (m : Nat) (tag : FieldTag), (groups m tag).Nodup

namespace Forest

def root : Forest where
  size := 1
  place _ _ := none
  groups _ _ := []
  newer h := absurd h List.not_mem_nil
  apart h := absurd h List.not_mem_nil
  nodup _ _ := List.nodup_nil

def set (F : Forest) (m : Nat) (tag : FieldTag) (p : UInt16 × UInt16) : Forest :=
  { F with place := fun j t => if j = m ∧ t = tag then some p else F.place j t }

theorem place_set (F : Forest) (m : Nat) (tag : FieldTag) (p : UInt16 × UInt16) :
    (F.set m tag p).place m tag = some p := if_pos ⟨rfl, rfl⟩

theorem place_set_of_ne (F : Forest) {m j : Nat} {tag t : FieldTag} (p : UInt16 × UInt16)
    (other : ¬ (j = m ∧ t = tag)) : (F.set m tag p).place j t = F.place j t := if_neg other

/-- A new map behind the groups of the field `tag` of the map `m`. -/
def graft (F : Forest) (m : Nat) (tag : FieldTag) (inside : m < F.size) : Forest where
  size := F.size + 1
  place := F.place
  groups j t := if j = m ∧ t = tag then F.groups j t ++ [F.size] else F.groups j t
  newer {j t i} h := by
    split at h
    · rename_i here
      rcases List.mem_append.mp h with old | new
      · have le := F.newer old
        omega
      · rw [List.mem_singleton.mp new, here.1]
        omega
    · have le := F.newer h
      omega
  apart {j j' t t' i} h h' := by
    have fresh : ∀ {j : Nat} {t : FieldTag}, F.size ∉ F.groups j t := fun old =>
      Nat.lt_irrefl _ (F.newer old).2
    split at h <;> split at h'
    · rename_i here here'
      exact ⟨here.1.trans here'.1.symm, here.2.trans here'.2.symm⟩
    · rcases List.mem_append.mp h with old | new
      · exact F.apart old h'
      · exact absurd (List.mem_singleton.mp new ▸ h') fresh
    · rcases List.mem_append.mp h' with old | new
      · exact F.apart h old
      · exact absurd (List.mem_singleton.mp new ▸ h) fresh
    · exact F.apart h h'
  nodup j t := by
    split
    · rw [List.nodup_append]
      refine ⟨F.nodup j t, List.nodup_singleton _, fun i old k new => ?_⟩
      rw [List.mem_singleton.mp new]
      exact Nat.ne_of_lt (F.newer old).2
    · exact F.nodup j t

theorem groups_graft (F : Forest) (m : Nat) (tag : FieldTag) (inside : m < F.size) :
    (F.graft m tag inside).groups m tag = F.groups m tag ++ [F.size] := if_pos ⟨rfl, rfl⟩

theorem groups_graft_of_ne (F : Forest) {m j : Nat} {tag t : FieldTag} {inside : m < F.size}
    (other : ¬ (j = m ∧ t = tag)) : (F.graft m tag inside).groups j t = F.groups j t :=
  if_neg other

theorem groups_of_le (F : Forest) {m : Nat} (beyond : F.size ≤ m) (tag : FieldTag) :
    F.groups m tag = [] := by
  apply List.eq_nil_iff_forall_not_mem.mpr
  intro j hj
  have le := F.newer hj
  omega

theorem length_groups_le (F : Forest) (m : Nat) (tag : FieldTag) :
    (F.groups m tag).length ≤ F.size := by
  have sub : F.groups m tag ⊆ List.range F.size := fun j hj =>
    List.mem_range.mpr (F.newer hj).2
  have count := ((F.nodup m tag).subperm sub).length_le
  rwa [List.length_range] at count

end Forest

namespace Arena

variable {maxMessageSize : Nat}

/-- The arena holds the forest: every field knows its place and the first and the last of
its groups, and these are linked in their order. -/
structure Shows (a : Arena maxMessageSize) (F : Forest) : Prop where
  stocked : a.Stocked
  size : a.maps.length = F.size
  absent : ∀ {m fm tag}, a.cells m = some fm → fm.map.find tag = none →
    F.place m tag = none ∧ F.groups m tag = []
  present : ∀ {m fm tag f}, a.cells m = some fm → fm.map.find tag = some f →
    F.place m tag = some (f.offset, f.length) ∧
      Chain.Linked a.next f.groups (F.groups m tag) ∧ f.tail = (F.groups m tag).getLast?
  beyond : ∀ m tag, F.size ≤ m → F.place m tag = none

variable {a a' : Arena maxMessageSize} {F : Forest} {m : Nat} {tag : FieldTag} {f : Field}

theorem find_stored {j : Nat} {fm' : FieldMap} (stored : a.set m f = .ok a')
    (cell' : a'.cells j = some fm') :
    ∃ fm, a.cells j = some fm ∧ ∀ t, fm'.map.find t =
      if j = m ∧ t = f.tag then
        some (((fm.map.find t).map fun old => Field.takeOver old f).getD f)
      else fm.map.find t := by
  obtain ⟨fm, l, cell, put, rfl⟩ := Heap.set_inv stored
  rw [a.cells_store m j _ (Heap.lt_of_cell cell)] at cell'
  split at cell'
  · rename_i same
    cases cell'
    refine ⟨fm, same ▸ cell, fun t => ?_⟩
    have found : l.find t = if f.tag = t then
        some (((fm.map.find t).map fun old => Field.takeOver old f).getD f)
        else fm.map.find t := KeyedList.find_put put t
    simp only [found, same, true_and, eq_comm]
  · rename_i other
    exact ⟨fm', cell', fun t => (if_neg fun here => other here.1.symm).symm⟩

namespace Shows

theorem exists_cell (h : a.Shows F) (inside : m < F.size) : ∃ fm, a.cells m = some fm :=
  Heap.exists_cell (h.size ▸ inside)

theorem lt_of_place (h : a.Shows F) {p : UInt16 × UInt16} (known : F.place m tag = some p) :
    m < F.size := by
  by_contra outside
  rw [h.beyond m tag (Nat.le_of_not_lt outside)] at known
  cases known

/-- The field that is stored, new or in place of another, has the new place and leads to the
groups there were. -/
theorem present_stored {fm : FieldMap} (h : a.Shows F) (cell : a.cells m = some fm)
    (offset length : Nat)
    (same : ((fm.map.find tag).map fun old => Field.takeOver old
      (Field.plain tag offset length)).getD (Field.plain tag offset length) = f) :
    (F.set m tag (UInt16.ofNat offset, UInt16.ofNat length)).place m tag =
        some (f.offset, f.length) ∧
      Chain.Linked a.next f.groups (F.groups m tag) ∧ f.tail = (F.groups m tag).getLast? := by
  subst same
  rw [F.place_set]
  cases old : fm.map.find tag with
  | none =>
      rw [(h.absent cell old).2]
      exact ⟨rfl, .null, rfl⟩
  | some f₀ =>
      obtain ⟨-, linked, tail⟩ := h.present cell old
      have place := Field.place_takeOver f₀ (Field.plain tag offset length)
      exact ⟨congrArg some place.symm, Field.heads_takeOver linked tail tag offset length⟩

theorem set (h : a.Shows F) {offset length : Nat}
    (stored : a.set m (Field.plain tag offset length) = .ok a') :
    a'.Shows (F.set m tag (UInt16.ofNat offset, UInt16.ofNat length)) := by
  obtain ⟨fm, l, cell, -, same⟩ := Heap.set_inv stored
  have links : a'.next = a.next := by
    rw [same]
    exact Heap.next_relist cell l
  refine ⟨?_, ?_, ?_, ?_, ?_⟩
  · rw [same]
    exact stocked_store h.stocked _ _
  · rw [same, Heap.length_store]
    exact h.size
  · intro j fm' t cell' missing
    obtain ⟨fm₀, old, finds⟩ := find_stored stored cell'
    rw [finds] at missing
    split at missing
    · cases missing
    · rename_i other
      obtain ⟨place, groups⟩ := h.absent old missing
      exact ⟨(F.place_set_of_ne _ other).trans place, groups⟩
  · intro j fm' t f' cell' known
    obtain ⟨fm₀, old, finds⟩ := find_stored stored cell'
    rw [finds] at known
    rw [links]
    split at known
    · rename_i here
      obtain ⟨rfl, rfl⟩ := here
      exact h.present_stored old offset length (Option.some.inj known)
    · rename_i other
      obtain ⟨place, heads⟩ := h.present old known
      exact ⟨(F.place_set_of_ne _ other).trans place, heads⟩
  · intro j t outside
    have inside := Heap.lt_of_cell cell
    have size : a.maps.length = F.size := h.size
    change F.size ≤ j at outside
    rw [F.place_set_of_ne _ fun here => by omega]
    exact h.beyond j t outside

theorem exists_field (h : a.Shows F) {p : UInt16 × UInt16} (known : F.place m tag = some p) :
    ∃ fm f, a.cells m = some fm ∧ fm.map.find tag = some f := by
  obtain ⟨fm, cell⟩ := h.exists_cell (h.lt_of_place known)
  cases found : fm.map.find tag with
  | none =>
      rw [(h.absent cell found).1] at known
      cases known
  | some f => exact ⟨fm, f, cell, found⟩

end Shows

/-- Only the list of the map `m` and the link of the last group of `f` have changed, and
there is one map more. -/
structure Grafted (a a' : Arena maxMessageSize) (m : Nat) (f : Field) (l : FieldList) : Prop where
  stocked : a'.Stocked
  length : a'.maps.length = a.maps.length + 1
  cells : ∀ j, a'.cells j =
    if j = a.maps.length then some FieldMap.new
    else (a.cells j).map fun fm =>
      { next := if f.tail = some j then some a.maps.length else fm.next
        map := if j = m then l else fm.map }

theorem exists_grafted_first {fm : FieldMap} {l : FieldList} (stocked : a.Stocked)
    (room : RoomFor maxMessageSize (a.maps.length + 1)) (cell : a.cells m = some fm)
    (found : fm.map.find tag = some f) (first : f.groups = none) (noTail : f.tail = none)
    (put : KeyedList.put Field.takeOverMerge fm.map (f.extended a.maps.length) = some l) :
    ∃ a', a.addGroup m tag = .ok (some a.maps.length, a') ∧ Grafted a a' m f l := by
  obtain ⟨a', added, grown, new⟩ := addGroup_first stocked room cell found first put
  refine ⟨a', added, grown.stocked, grown.length, fun j => ?_⟩
  simp only [noTail, reduceCtorEq, if_false]
  rcases Nat.lt_trichotomy j a.maps.length with low | same | high
  · rw [if_neg (Nat.ne_of_lt low)]
    by_cases own : j = m
    · rw [own, grown.cell, cell]
      simp
    · rw [grown.others j low own]
      simp [own]
  · rw [if_pos same, same, new]
  · rw [if_neg (Nat.ne_of_gt high)]
    have beyond : a'.cells j = none := Heap.cells_of_le (by rw [grown.length]; exact high)
    have before : a.cells j = none := Heap.cells_of_le (Nat.le_of_lt high)
    rw [beyond, before]
    rfl

theorem exists_grafted_next {fm last : FieldMap} {l : FieldList} {t : Nat} (stocked : a.Stocked)
    (room : RoomFor maxMessageSize (a.maps.length + 1)) (cell : a.cells m = some fm)
    (found : fm.map.find tag = some f) (group : f.groups.isSome) (tail : f.tail = some t)
    (lastCell : a.cells t = some last) (apart : t ≠ m)
    (put : KeyedList.put Field.takeOverMerge fm.map (f.extended a.maps.length) = some l) :
    ∃ a', a.addGroup m tag = .ok (some a.maps.length, a') ∧ Grafted a a' m f l := by
  have inside := Heap.lt_of_cell cell
  have low := Heap.lt_of_cell lastCell
  obtain ⟨a', added, stocked', length, cells⟩ :=
    addGroup_next stocked room cell found group tail lastCell apart put
  refine ⟨a', added, stocked', length, fun j => ?_⟩
  rw [cells, tail]
  by_cases own : j = m
  · subst own
    rw [if_pos rfl, if_neg (Nat.ne_of_lt inside), cell]
    simp [apart]
  · rw [if_neg own]
    by_cases tailed : j = t
    · subst tailed
      rw [if_pos rfl, if_neg (Nat.ne_of_lt low), lastCell]
      simp [own]
    · rw [if_neg tailed]
      split
      · rfl
      · simp [Ne.symm tailed]

/-- A group is opened when there is room for its map. -/
theorem Shows.exists_grafted {fm : FieldMap} (h : a.Shows F)
    (room : RoomFor maxMessageSize (a.maps.length + 1)) (cell : a.cells m = some fm)
    (found : fm.map.find tag = some f) :
    ∃ a' l, a.addGroup m tag = .ok (some a.maps.length, a') ∧ Grafted a a' m f l ∧
      KeyedList.put Field.takeOverMerge fm.map (f.extended a.maps.length) = some l := by
  have key : f.tag = tag := KeyedList.key_of_find found
  obtain ⟨l, put⟩ := FieldList.exists_put_found (x := f.extended a.maps.length) found key
  obtain ⟨-, linked, tail⟩ := h.present cell found
  cases first : f.groups with
  | none =>
      have noTail : f.tail = none := by
        rw [first] at linked
        rw [tail, linked.eq_nil]
        rfl
      obtain ⟨a', added, grafted⟩ :=
        exists_grafted_first h.stocked room cell found first noTail put
      exact ⟨a', l, added, grafted, put⟩
  | some head =>
      rw [first] at linked
      obtain ⟨t, last⟩ : ∃ t, f.tail = some t := by
        rw [tail]
        exact linked.exists_last
      have young := F.newer (List.mem_of_getLast? (tail.symm.trans last))
      obtain ⟨lastMap, lastCell⟩ := h.exists_cell young.2
      obtain ⟨a', added, grafted⟩ := exists_grafted_next h.stocked room cell found
        (by rw [first]; rfl) last lastCell (Nat.ne_of_gt young.1) put
      exact ⟨a', l, added, grafted, put⟩

namespace Grafted

variable {l : FieldList}

theorem next_eq_of_ne (g : Grafted a a' m f l) {j : Nat} (old : j < a.maps.length)
    (other : f.tail ≠ some j) : a'.next j = a.next j := by
  rw [Heap.next_eq, Heap.next_eq, g.cells, if_neg (Nat.ne_of_lt old)]
  cases a.cells j with
  | none => rfl
  | some fm => simp [other]

theorem next_tail (g : Grafted a a' m f l) {j : Nat} (old : j < a.maps.length)
    (last : f.tail = some j) : a'.next j = some a.maps.length := by
  obtain ⟨fm, cell⟩ := Heap.exists_cell old
  rw [Heap.next_eq, g.cells, if_neg (Nat.ne_of_lt old), cell]
  simp [last]

theorem next_new (g : Grafted a a' m f l) : a'.next a.maps.length = none := by
  rw [Heap.next_eq, g.cells, if_pos rfl]
  rfl

theorem linked (g : Grafted a a' m f l) (h : a.Shows F) {fm : FieldMap}
    (cell : a.cells m = some fm) (found : fm.map.find tag = some f) :
    Chain.Linked a'.next (f.groups.or (some a.maps.length))
      (F.groups m tag ++ [a.maps.length]) := by
  obtain ⟨-, linked, tail⟩ := h.present cell found
  have below : ∀ j ∈ F.groups m tag, j < a.maps.length := fun j hj => h.size ▸ (F.newer hj).2
  rcases List.eq_nil_or_concat (F.groups m tag) with empty | ⟨ids, t, snoc⟩
  · rw [empty] at linked
    have first : f.groups = none := by
      cases heads : f.groups with
      | none => rfl
      | some j =>
          rw [heads] at linked
          cases linked
    rw [empty, first]
    exact Chain.linked_singleton g.next_new
  · rw [List.concat_eq_append] at snoc
    have distinct := F.nodup m tag
    rw [snoc] at linked tail below distinct ⊢
    have last : f.tail = some t := by
      rw [tail]
      exact List.getLast?_concat
    have first : f.groups.or (some a.maps.length) = f.groups := by
      cases heads : f.groups with
      | some j => rfl
      | none =>
          rw [heads] at linked
          exact absurd linked.eq_nil (by simp)
    rw [first, List.append_assoc]
    refine linked.snoc distinct ?_ (g.next_tail (below t (by simp)) last) g.next_new
    intro j hj
    refine g.next_eq_of_ne (below j (List.mem_append_left _ hj)) ?_
    rw [last]
    intro same
    exact (List.nodup_append.mp distinct).2.2 j hj t (List.mem_singleton_self _)
      (Option.some.inj same).symm

theorem linked_of_ne (g : Grafted a a' m f l) (h : a.Shows F) {fm : FieldMap}
    (cell : a.cells m = some fm) (found : fm.map.find tag = some f) {p : Option Nat} {j : Nat}
    {t : FieldTag} (other : ¬ (j = m ∧ t = tag)) (chain : Chain.Linked a.next p (F.groups j t)) :
    Chain.Linked a'.next p (F.groups j t) := by
  obtain ⟨-, -, tail⟩ := h.present cell found
  refine chain.frame fun i hi => g.next_eq_of_ne (h.size ▸ (F.newer hi).2) fun last => ?_
  rw [tail] at last
  exact other (F.apart hi (List.mem_of_getLast? last))

theorem find_cases {fm : FieldMap} (g : Grafted a a' m f l) (cell : a.cells m = some fm)
    (found : fm.map.find tag = some f)
    (put : KeyedList.put Field.takeOverMerge fm.map (f.extended a.maps.length) = some l)
    {j : Nat} {fm' : FieldMap} (cell' : a'.cells j = some fm') :
    (j = a.maps.length ∧ fm'.map = .empty) ∨
      ∃ fm₀, a.cells j = some fm₀ ∧ ∀ t, fm'.map.find t =
        if j = m ∧ t = tag then some (f.extended a.maps.length) else fm₀.map.find t := by
  rw [g.cells] at cell'
  split at cell'
  · rename_i new
    cases cell'
    exact .inl ⟨new, rfl⟩
  · obtain ⟨fm₀, old, same⟩ := Option.map_eq_some_iff.mp cell'
    subst same
    refine .inr ⟨fm₀, old, fun t => ?_⟩
    by_cases own : j = m
    · rw [own, cell] at old
      cases old
      simp only [own, if_true, true_and, FieldList.find_put_extended found put, eq_comm]
    · simp only [own, if_false, false_and]

theorem shows (g : Grafted a a' m f l) (h : a.Shows F) {fm : FieldMap}
    (cell : a.cells m = some fm) (found : fm.map.find tag = some f)
    (put : KeyedList.put Field.takeOverMerge fm.map (f.extended a.maps.length) = some l)
    (inside : m < F.size) : a'.Shows (F.graft m tag inside) := by
  obtain ⟨place, -, -⟩ := h.present cell found
  have size : a.maps.length = F.size := h.size
  refine ⟨g.stocked, by rw [g.length, size]; rfl, ?_, ?_, ?_⟩
  · intro j fm' t cell' missing
    rcases g.find_cases cell found put cell' with ⟨new, -⟩ | ⟨fm₀, old, finds⟩
    · have outside : F.size ≤ j := Nat.le_of_eq (new.trans size).symm
      rw [F.groups_graft_of_ne fun here => by omega]
      exact ⟨h.beyond j t outside, F.groups_of_le outside t⟩
    · rw [finds] at missing
      split at missing
      · cases missing
      · rename_i other
        rw [F.groups_graft_of_ne other]
        exact h.absent old missing
  · intro j fm' t f' cell' known
    rcases g.find_cases cell found put cell' with ⟨-, empty⟩ | ⟨fm₀, old, finds⟩
    · rw [empty] at known
      cases known
    · rw [finds] at known
      split at known
      · rename_i here
        obtain ⟨rfl, rfl⟩ := here
        cases known
        rw [F.groups_graft, ← size]
        exact ⟨place, g.linked h cell found, List.getLast?_concat.symm⟩
      · rename_i other
        obtain ⟨place', linked, tail⟩ := h.present old known
        rw [F.groups_graft_of_ne other]
        exact ⟨place', g.linked_of_ne h cell found other linked, tail⟩
  · intro j t outside
    exact h.beyond j t (Nat.le_of_succ_le outside)

end Grafted

namespace Shows

/-- A group is opened behind the others of its field. -/
theorem addGroup (h : a.Shows F) {p : UInt16 × UInt16} (known : F.place m tag = some p)
    (inside : m < F.size) (room : RoomFor maxMessageSize (F.size + 1)) :
    ∃ a' : Arena maxMessageSize, a.addGroup m tag = .ok (some F.size, a') ∧
      a'.Shows (F.graft m tag inside) := by
  obtain ⟨fm, f, cell, found⟩ := h.exists_field known
  have size : a.maps.length = F.size := h.size
  rw [← size] at room
  obtain ⟨a', l, added, g, put⟩ := h.exists_grafted room cell found
  refine ⟨a', ?_, g.shows h cell found put inside⟩
  rw [added, size]

theorem addGroup_full (h : a.Shows F) (full : ¬ RoomFor maxMessageSize (F.size + 1))
    (m : Nat) (tag : FieldTag) : a.addGroup m tag = .ok (none, a) := by
  refine Heap.addGroup_refused (carve_full h.stocked ?_) m tag
  have size : a.maps.length = F.size := h.size
  rwa [size]

theorem get_some (h : a.Shows F) (found : a.get m tag = .ok (some f)) :
    F.place m tag = some (f.offset, f.length) ∧ f.tag = tag ∧
      a.groupCount f = .ok (F.groups m tag).length := by
  cases cell : a.cells m with
  | none =>
      rw [Heap.get_null cell] at found
      cases found
  | some fm =>
      have held : fm.map.find tag = some f :=
        Except.ok.inj ((Heap.get_cell cell).symm.trans found)
      obtain ⟨place, linked, -⟩ := h.present cell held
      have few := F.length_groups_le m tag
      have size : a.maps.length = F.size := h.size
      exact ⟨place, KeyedList.key_of_find held, Heap.groupCount_linked linked (by omega)⟩

theorem exists_get (h : a.Shows F) {p : UInt16 × UInt16} (known : F.place m tag = some p) :
    ∃ f, a.get m tag = .ok (some f) ∧ p = (f.offset, f.length) ∧ f.tag = tag ∧
      a.groupCount f = .ok (F.groups m tag).length := by
  obtain ⟨fm, f, cell, held⟩ := h.exists_field known
  have found : a.get m tag = .ok (some f) := (Heap.get_cell cell).trans (congrArg Except.ok held)
  obtain ⟨place, key, count⟩ := h.get_some found
  exact ⟨f, found, Option.some.inj (known.symm.trans place), key, count⟩

theorem get_none (h : a.Shows F) (inside : m < F.size) (missing : F.place m tag = none) :
    a.get m tag = .ok none := by
  obtain ⟨fm, cell⟩ := h.exists_cell inside
  have read : a.get m tag = .ok (fm.map.find tag) := Heap.get_cell cell
  cases found : fm.map.find tag with
  | none => rw [read, found]
  | some f =>
      rw [(h.present cell found).1] at missing
      cases missing

theorem getInt (h : a.Shows F) {p : UInt16 × UInt16} (known : F.place m tag = some p)
    (bytes : List UInt8) :
    a.getInt bytes m tag =
      some <$> parseInt bytes p.1.toNat (p.1.toNat + p.2.toNat) := by
  obtain ⟨f, found, rfl, -⟩ := h.exists_get known
  unfold Arena.getInt
  rw [found]
  rfl

end Shows

end Arena

end FastLittleMarket.Fix
