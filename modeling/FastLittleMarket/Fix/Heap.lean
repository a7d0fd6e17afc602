import FastLittleMarket.Fix.FieldMap

/-!
What one call does to the cells of the field maps and to the links between them, whatever
buffer the maps are carved from.
-/

namespace FastLittleMarket.Fix

namespace Field

/-- The field of a map that gets a further group. -/
def extended (f : Field) (group : Nat) : Field :=
  { f with groups := f.groups.or (some group), tail := some group }

theorem place_takeOver (old new : Field) :
    ((Field.takeOver old new).offset, (Field.takeOver old new).length) =
      (new.offset, new.length) := by
  unfold Field.takeOver
  split <;> rfl

/-- A plain field in place of another takes its groups over. -/
theorem heads_takeOver {next : Nat → Option Nat} {old : Field} {ids : List Nat}
    (linked : Chain.Linked next old.groups ids) (tail : old.tail = ids.getLast?)
    (tag : FieldTag) (offset length : Nat) :
    Chain.Linked next (Field.takeOver old (Field.plain tag offset length)).groups ids ∧
      (Field.takeOver old (Field.plain tag offset length)).tail = ids.getLast? := by
  cases first : old.groups with
  | none =>
      rw [first] at linked
      cases linked
      simpa [Field.takeOver, first, Field.plain] using Chain.Linked.null
  | some j =>
      rw [first] at linked
      simpa [Field.takeOver, first, Field.plain, Field.isGroup] using ⟨linked, tail⟩

end Field

namespace FieldList

variable {l l' : FieldList} {f x : Field} {tag : FieldTag}

theorem exists_put_found (found : l.find tag = some f) (key : x.tag = tag) :
    ∃ l', KeyedList.put Field.takeOverMerge l x = some l' := by
  cases put : KeyedList.put Field.takeOverMerge l x with
  | some l' => exact ⟨l', rfl⟩
  | none =>
      have fresh := KeyedList.find_eq_none.mpr (KeyedList.put_eq_none.mp put).1
      rw [key, found] at fresh
      cases fresh

theorem find_put_extended {group : Nat} (found : l.find tag = some f)
    (put : KeyedList.put Field.takeOverMerge l (f.extended group) = some l') (t : FieldTag) :
    l'.find t = if tag = t then some (f.extended group) else l.find t := by
  have held : f.tag = tag := KeyedList.key_of_find found
  have key : (f.extended group).tag = tag := held
  have isGroup : (f.extended group).isGroup = true := by
    unfold Field.extended Field.isGroup
    cases f.groups <;> rfl
  have merged : Field.takeOver f (f.extended group) = f.extended group := by
    simp [Field.takeOver, isGroup]
  rw [KeyedList.find_put put, key]
  split
  · rename_i same
    rw [← same, found]
    exact congrArg some merged
  · rfl

end FieldList

namespace Heap

variable {β : Type} {h h' : Heap β} {m : Nat} {fm : FieldMap} {nx : Option Nat}
  {l l' : FieldList} {f : Field} {tag : FieldTag}

def cells (h : Heap β) (j : Nat) : Option FieldMap := h.maps[j]?

theorem next_eq (h : Heap β) (j : Nat) : h.next j = (h.cells j).bind FieldMap.next := rfl

theorem lt_of_cell (cell : h.cells m = some fm) : m < h.maps.length :=
  (List.getElem?_eq_some_iff.mp cell).1

theorem exists_cell (inside : m < h.maps.length) : ∃ fm, h.cells m = some fm :=
  ⟨_, List.getElem?_eq_getElem inside⟩

theorem cells_of_le (beyond : h.maps.length ≤ m) : h.cells m = none :=
  List.getElem?_eq_none beyond

theorem cells_store (h : Heap β) (m j : Nat) (fm : FieldMap) (inside : m < h.maps.length) :
    (h.store m fm).cells j = if m = j then some fm else h.cells j := by
  unfold cells store
  by_cases same : m = j
  · rw [if_pos same, ← same, List.getElem?_set_self inside]
  · rw [if_neg same, List.getElem?_set_ne same]

theorem cell_store (inside : m < h.maps.length) (fm : FieldMap) :
    (h.store m fm).cells m = some fm := (cells_store h m m fm inside).trans (if_pos rfl)

theorem length_store (h : Heap β) (m : Nat) (fm : FieldMap) :
    (h.store m fm).maps.length = h.maps.length := List.length_set

/-- Another field list in a map leaves all links. -/
theorem next_relist (cell : h.cells m = some fm) (l : FieldList) :
    (h.store m { fm with map := l }).next = h.next := by
  funext j
  rw [next_eq, next_eq, cells_store h m j _ (lt_of_cell cell)]
  split
  · rename_i same
    rw [← same, cell]
    rfl
  · rfl

theorem deref_cell (cell : h.cells m = some fm) : h.deref m = .ok fm := by
  unfold cells at cell
  unfold deref
  rw [cell]

theorem cell_of_deref (found : h.deref m = .ok fm) : h.cells m = some fm := by
  unfold deref at found
  unfold cells
  split at found
  · cases found
  · rename_i cell
    cases found
    exact cell

theorem get_cell (cell : h.cells m = some ⟨nx, l⟩) : h.get m tag = .ok (l.find tag) := by
  unfold get
  rw [deref_cell cell]
  rfl

theorem get_null (null : h.cells m = none) : h.get m tag = .error .nullPointer := by
  unfold cells at null
  unfold get deref
  rw [null]
  rfl

theorem set_cell (cell : h.cells m = some fm)
    (put : KeyedList.put Field.takeOverMerge fm.map f = some l) :
    h.set m f = .ok (h.store m { fm with map := l }) := by
  unfold set
  rw [deref_cell cell]
  simp only [bind, Except.bind, FieldList.put, put, pure, Except.pure]

/-- What a store does, and why it may fail. -/
theorem set_inv (stored : h.set m f = .ok h') :
    ∃ fm l, h.cells m = some fm ∧ KeyedList.put Field.takeOverMerge fm.map f = some l ∧
      h' = h.store m { fm with map := l } := by
  obtain ⟨fm, cell, stored⟩ := Loop.exists_of_bind stored
  obtain ⟨l, put, stored⟩ := Loop.exists_of_bind stored
  cases stored
  exact ⟨fm, l, cell_of_deref cell, FieldList.put_eq_ok.mp put, rfl⟩

theorem set_refused {e : ParseFault} (cell : h.cells m = some fm) (refused : h.set m f = .error e) :
    e = .fieldListFull ∧ f.tag ∉ fm.map.keys ∧ fixMsgMaxFieldCount ≤ fm.map.items.length := by
  unfold set at refused
  simp only [deref_cell cell, bind, Except.bind, FieldList.put] at refused
  cases put : KeyedList.put Field.takeOverMerge fm.map f with
  | some l =>
      rw [put] at refused
      cases refused
  | none =>
      rw [put] at refused
      obtain ⟨fresh, full⟩ := KeyedList.put_eq_none.mp put
      exact ⟨(Except.error.inj refused).symm, fresh, full⟩

theorem set_full (cell : h.cells m = some fm) (fresh : f.tag ∉ fm.map.keys)
    (full : fixMsgMaxFieldCount ≤ fm.map.items.length) : h.set m f = .error .fieldListFull := by
  have refused := KeyedList.put_eq_none (m := Field.takeOverMerge).mpr ⟨fresh, full⟩
  unfold set
  simp only [deref_cell cell, bind, Except.bind, FieldList.put, refused]

theorem groupCount_linked {x : Field} {ids : List Nat}
    (chain : Chain.Linked h.next x.groups ids) (few : ids.length ≤ h.maps.length) :
    h.groupCount x = .ok ids.length := by
  have counted := chain.count_eq ParseFault.unfinishedLoop (Nat.lt_succ_of_le few) 0
  rwa [Nat.zero_add] at counted

section Carve

variable [MapBuffer β] {grown : Heap β}

theorem maps_carve (carved : h.carve = some grown) : grown.maps = h.maps ++ [FieldMap.new] := by
  obtain ⟨buf, -, rfl⟩ := Option.map_eq_some_iff.mp carved
  rfl

theorem length_carve (carved : h.carve = some grown) :
    grown.maps.length = h.maps.length + 1 := by
  rw [maps_carve carved, List.length_append, List.length_singleton]

theorem cells_carve (carved : h.carve = some grown) (j : Nat) :
    grown.cells j = if j = h.maps.length then some FieldMap.new else h.cells j := by
  unfold cells
  rw [maps_carve carved]
  rcases Nat.lt_trichotomy j h.maps.length with low | same | high
  · rw [if_neg (Nat.ne_of_lt low), List.getElem?_append_left low]
  · rw [if_pos same, same, List.getElem?_concat_length]
  · rw [if_neg (Nat.ne_of_gt high), List.getElem?_eq_none (Nat.le_of_lt high),
      List.getElem?_eq_none]
    rw [List.length_append, List.length_singleton]
    exact high

theorem cell_carve (carved : h.carve = some grown) (cell : h.cells m = some fm) :
    grown.cells m = some fm := by
  rw [cells_carve carved, if_neg (Nat.ne_of_lt (lt_of_cell cell)), cell]

/-- The new map has no link, and there is none behind the last map before either. -/
theorem next_carve (carved : h.carve = some grown) : grown.next = h.next := by
  funext j
  rw [next_eq, next_eq, cells_carve carved]
  split
  · rename_i new
    rw [new, cells_of_le (Nat.le_refl _)]
    rfl
  · rfl

theorem addGroup_refused (full : h.carve = none) (m : Nat) (tag : FieldTag) :
    h.addGroup m tag = .ok (none, h) := by
  unfold addGroup
  rw [full]

/-- Only for lack of memory is there no group, and then nothing has changed. -/
theorem addGroup_eq_none :
    h.addGroup m tag = .ok (none, h') ↔ h' = h ∧ h.carve = none := by
  unfold addGroup
  cases carved : h.carve with
  | none =>
      constructor
      · intro made
        cases made
        exact ⟨rfl, rfl⟩
      · rintro ⟨rfl, -⟩
        rfl
  | some grown =>
      refine iff_of_false (fun made => ?_) fun both => ?_
      · obtain ⟨parent, -, made⟩ := Loop.exists_of_bind made
        cases found : parent.map.find tag with
        | none =>
            simp only [found] at made
            obtain ⟨list, -, made⟩ := Loop.exists_of_bind made
            cases made
        | some field =>
            simp only [found] at made
            split at made
            · obtain ⟨list, -, made⟩ := Loop.exists_of_bind made
              cases made
            · split at made
              · cases made
              · obtain ⟨last, -, made⟩ := Loop.exists_of_bind made
                obtain ⟨parent', -, made⟩ := Loop.exists_of_bind made
                obtain ⟨list, -, made⟩ := Loop.exists_of_bind made
                cases made
      · cases both.2

/-- The first group under a tag that the map does not know. -/
theorem addGroup_unknown (carved : h.carve = some grown) (cell : h.cells m = some fm)
    (missing : fm.map.find tag = none)
    (put : KeyedList.put Field.takeOverMerge fm.map (Field.ofGroups tag 0 0 h.maps.length) =
      some l) :
    h.addGroup m tag = .ok (some h.maps.length, grown.store m { fm with map := l }) := by
  unfold addGroup
  rw [carved]
  simp only [deref_cell (cell_carve carved cell), bind, Except.bind, missing, FieldList.put, put]
  rfl

/-- The first group under a tag that the map knows. -/
theorem addGroup_first (carved : h.carve = some grown) (cell : h.cells m = some fm)
    (found : fm.map.find tag = some f) (first : f.groups = none)
    (put : KeyedList.put Field.takeOverMerge fm.map (f.extended h.maps.length) = some l) :
    h.addGroup m tag = .ok (some h.maps.length, grown.store m { fm with map := l }) := by
  have notGroup : (!f.isGroup) = true := by simp [Field.isGroup, first]
  have same : f.extended h.maps.length =
      { f with groups := some h.maps.length, tail := some h.maps.length } := by
    simp [Field.extended, first]
  rw [same] at put
  unfold addGroup
  rw [carved]
  simp only [deref_cell (cell_carve carved cell), bind, Except.bind, found, if_pos notGroup,
    FieldList.put, put]
  rfl

/-- A further group: the last one so far is linked to it. -/
theorem addGroup_next {t : Nat} {last : FieldMap} (carved : h.carve = some grown)
    (cell : h.cells m = some fm) (found : fm.map.find tag = some f) (group : f.groups.isSome)
    (tail : f.tail = some t) (lastCell : h.cells t = some last) (apart : t ≠ m)
    (put : KeyedList.put Field.takeOverMerge fm.map (f.extended h.maps.length) = some l) :
    h.addGroup m tag = .ok (some h.maps.length,
      (grown.store t { last with next := some h.maps.length }).store m { fm with map := l }) := by
  have isGroup : ¬ (!f.isGroup) = true := by simp [Field.isGroup, group]
  have same : f.extended h.maps.length = { f with tail := some h.maps.length } := by
    obtain ⟨head, first⟩ := Option.isSome_iff_exists.mp group
    simp [Field.extended, first]
  rw [same] at put
  have linked := cell_carve carved lastCell
  have parent := cell_carve carved cell
  let c := grown.store t { last with next := some h.maps.length }
  have parent' : c.cells m = some fm := by
    rw [cells_store grown t m _ (lt_of_cell linked), if_neg apart, parent]
  unfold addGroup
  rw [carved]
  simp only [deref_cell parent, bind, Except.bind, found, if_neg isGroup, tail,
    deref_cell linked]
  change (do let parent ← c.deref m; _) = _
  rw [deref_cell parent']
  simp only [bind, Except.bind, FieldList.put, put]
  rfl

end Carve

end Heap

end FastLittleMarket.Fix
