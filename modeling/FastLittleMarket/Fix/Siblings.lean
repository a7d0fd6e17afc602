import FastLittleMarket.Fix.Blocks

/-!
A block underway. Between its count field and its last end field the parser knows a
block from the map in which it began: that map heads the chain of the instances so far,
and each end field compares their number with the announced one.
-/

namespace FastLittleMarket.Fix

open Cursor

variable {maxMessageSize : Nat}

/-- The count field of a block: its definition, the map it stands in, with the fields in
front of it, the place of its value, the first map of the block, and its number. -/
structure BlockHead where
  gd : GroupDef
  parent : Nat
  next : Option Nat
  list : FieldList
  offset : Nat
  length : Nat
  first : Nat
  count : Nat

namespace BlockHead

/-- The count field while `last` is the last map of the block. -/
def heading (h : BlockHead) (last : Nat) : Field :=
  Field.heading h.gd.groupCountTag h.offset h.length h.first last

end BlockHead

/-- The block is underway: behind the instances with the maps `before` the current one
holds `own`, the bytes `s` being parsed. -/
structure Underway (h : BlockHead) (a : Arena maxMessageSize) (before : List Nat) (current : Nat)
    (own : FieldList) (s : List UInt8) : Prop where
  stocked : a.Stocked
  cell : a.cells current = some ⟨none, own⟩
  heading : ∃ l, KeyedList.put Field.takeOverMerge h.list (h.heading current) = some l ∧
    a.cells h.parent = some ⟨h.next, l⟩
  chain : Chain.Linked a.next (some h.first) (before ++ [current])
  distinct : (before ++ [current]).Nodup
  below : ∀ j ∈ before ++ [current], j ≤ current ∧ j ≠ h.parent
  low : h.parent < current
  short : before.length ≤ current
  expected : ∀ later, announced (s ++ later) h.offset h.length = .ok (h.count : Int)

/-- The maps behind an end field that is not the last of its block: the map of the
instance is linked to a new one, and the heading in `parent` ends there. -/
structure Opened (a a' : Arena maxMessageSize) (parent current : Nat) (fm : FieldMap)
    (li : FieldList) : Prop where
  length : a'.maps.length = a.maps.length + 1
  stocked : a'.Stocked
  heading : a'.cells parent = some fm
  full : a'.cells current = some ⟨some a.maps.length, li⟩
  new : a'.cells a.maps.length = some FieldMap.new
  others : ∀ j < a.maps.length, j ≠ parent → j ≠ current → a'.cells j = a.cells j

namespace Underway

variable {h : BlockHead} {a a' : Arena maxMessageSize} {before : List Nat} {current lo hi : Nat}
  {own own' li : FieldList} {s : List UInt8}

theorem inside (u : Underway h a before current own s) : current < a.maps.length :=
  Heap.lt_of_cell u.cell

theorem start (stocked : a.Stocked) (new : a.cells current = some FieldMap.new)
    (heading : ∃ l, KeyedList.put Field.takeOverMerge h.list (h.heading current) = some l ∧
      a.cells h.parent = some ⟨h.next, l⟩)
    (first : h.first = current) (low : h.parent < current)
    (expected : ∀ later, announced (s ++ later) h.offset h.length = .ok (h.count : Int)) :
    Underway h a [] current KeyedList.empty s where
  stocked := stocked
  cell := new
  heading := heading
  chain := by
    rw [first]
    exact Chain.linked_singleton (by rw [Heap.next_eq, new]; rfl)
  distinct := List.nodup_singleton _
  below j hj := by
    rw [List.mem_singleton.mp hj]
    exact ⟨Nat.le_refl _, Nat.ne_of_gt low⟩
  low := low
  short := Nat.zero_le _
  expected := expected

theorem filled (u : Underway h a before current own s)
    (grown : Arena.Grown lo hi a a' current ⟨none, own'⟩) (lt : current < lo) (w : List UInt8) :
    Underway h a' before current own' (s ++ w) where
  stocked := grown.stocked
  cell := grown.cell
  heading := by
    obtain ⟨l, put, cell⟩ := u.heading
    have other : h.parent ≠ current := Nat.ne_of_lt u.low
    exact ⟨l, put, (grown.others h.parent (Nat.lt_trans u.low lt) other).trans cell⟩
  chain := by
    refine grown.linked u.chain (fun j hj => Nat.lt_of_le_of_lt (u.below j hj).1 lt) ?_
    rw [Heap.next_eq, u.cell]
    rfl
  distinct := u.distinct
  below := u.below
  low := u.low
  short := u.short
  expected y := by
    rw [List.append_assoc]
    exact u.expected _

theorem opened {l' : FieldList} (u : Underway h a before current own s)
    (put : KeyedList.put Field.takeOverMerge h.list (h.heading a.maps.length) = some l')
    (opened : Opened a a' h.parent current ⟨h.next, l'⟩ li)
    (w : List UInt8) :
    Underway h a' (before ++ [current]) a.maps.length KeyedList.empty (s ++ w) where
  stocked := opened.stocked
  cell := opened.new
  heading := ⟨l', put, opened.heading⟩
  chain := by
    rw [List.append_assoc]
    refine u.chain.snoc u.distinct ?_ ?_ ?_
    · intro j old
      obtain ⟨le, other⟩ := u.below j (List.mem_append_left _ old)
      have other' : j ≠ current :=
        (List.nodup_append.mp u.distinct).2.2 j old current (List.mem_singleton_self _)
      rw [Heap.next_eq, Heap.next_eq,
        opened.others j (Nat.lt_of_le_of_lt le u.inside) other other']
    · rw [Heap.next_eq, opened.full]
      rfl
    · rw [Heap.next_eq, opened.new]
      rfl
  distinct := by
    rw [List.nodup_append]
    refine ⟨u.distinct, List.nodup_singleton _, fun j old k hk => ?_⟩
    rw [List.mem_singleton.mp hk]
    exact Nat.ne_of_lt (Nat.lt_of_le_of_lt (u.below j old).1 u.inside)
  below j hj := by
    have inside := u.inside
    have low := u.low
    rcases List.mem_append.mp hj with old | last
    · have place := u.below j old
      omega
    · have place := List.mem_singleton.mp last
      omega
  low := Nat.lt_trans u.low u.inside
  short := by
    have short := u.short
    have inside := u.inside
    rw [List.length_append, List.length_singleton]
    omega
  expected y := by
    rw [List.append_assoc]
    exact u.expected _

theorem found (u : Underway h a before current own s) :
    a.get h.parent h.gd.groupCountTag = .ok (some (h.heading current)) := by
  obtain ⟨l, put, cell⟩ := u.heading
  rw [Heap.get_cell cell, find_heading put]
  rfl

theorem received (u : Underway h a before current own s) :
    a.groupCount (h.heading current) = .ok (before.length + 1) := by
  have short := u.short
  have inside := u.inside
  have counted := Heap.groupCount_linked (x := h.heading current) u.chain
    (by rw [List.length_append, List.length_singleton]; omega)
  rwa [List.length_append, List.length_singleton] at counted

theorem announces (u : Underway h a before current own s)
    (known : h.gd.groupCountTag ≠ .invalid) (later : List UInt8) :
    Arena.getIntOf (s ++ later) (h.heading current) = .ok (some (h.count : Int)) := by
  rw [BlockHead.heading, getIntOf_heading known, u.expected]
  rfl

section Close

variable {gds : List GroupDef} {f : RawField} (defs : GroupDefs) (rest : List UInt8) (n : Nat)
  (stack : List Nat)

/-- An end field is stored, and the instances so far are compared with the announced ones. -/
theorem close_round (u : Underway h a before current own s) (sound : GroupDefs.Sound gds)
    (hgd : h.gd ∈ gds) (ends : EndField h.gd f)
    (put : KeyedList.put Field.takeOverMerge own
      (Field.plain f.tag (f.token s.length).offset f.value.length) = some li)
    (fits : s.length + f.wire.length ≤ maxMessageSize) :
    parseField defs
        ⟨window s (f.wire ++ rest) n, a, some current, h.parent :: stack, some gds⟩ =
      Loop.Step.next <$>
        (if h.count ≤ before.length + 1 then
          .ok ⟨window (s ++ f.wire) rest (n - f.wire.length), a.store current ⟨none, li⟩,
            some h.parent, stack, some gds⟩
        else
          (do
            let (group, arena) ←
              (a.store current ⟨none, li⟩).addGroup h.parent h.gd.groupCountTag
            pure ⟨window (s ++ f.wire) rest (n - f.wire.length), arena, group,
              h.parent :: stack, some gds⟩)) := by
  have after := u.filled (Arena.grown_store u.stocked u.inside ⟨none, li⟩) u.inside f.wire
  let st : ParseState maxMessageSize := ⟨window (s ++ f.wire) rest (n - f.wire.length),
    a.store current ⟨none, li⟩, some current, h.parent :: stack, some gds⟩
  have closed := closeGroup_eq st rfl after.found
    (after.announces (sound.known h.gd hgd) (rest.take (n - f.wire.length))) after.received
  rw [end_round defs rest n (h.parent :: stack) sound hgd ends u.cell put fits, closed]
  simp only [Option.getD_some, ge_iff_le, Int.ofNat_le]
  rfl

theorem close_last (u : Underway h a before current own s) (sound : GroupDefs.Sound gds)
    (hgd : h.gd ∈ gds) (ends : EndField h.gd f)
    (put : KeyedList.put Field.takeOverMerge own
      (Field.plain f.tag (f.token s.length).offset f.value.length) = some li)
    (fits : s.length + f.wire.length ≤ maxMessageSize) (done : h.count ≤ before.length + 1) :
    parseField defs
        ⟨window s (f.wire ++ rest) n, a, some current, h.parent :: stack, some gds⟩ =
      .ok (.next ⟨window (s ++ f.wire) rest (n - f.wire.length), a.store current ⟨none, li⟩,
        some h.parent, stack, some gds⟩) := by
  rw [u.close_round defs rest n stack sound hgd ends put fits, if_pos done]
  rfl

theorem close_more (u : Underway h a before current own s) (sound : GroupDefs.Sound gds)
    (hgd : h.gd ∈ gds) (ends : EndField h.gd f)
    (room : Arena.RoomFor maxMessageSize (a.maps.length + 1))
    (put : KeyedList.put Field.takeOverMerge own
      (Field.plain f.tag (f.token s.length).offset f.value.length) = some li)
    (fits : s.length + f.wire.length ≤ maxMessageSize) (more : before.length + 1 < h.count) :
    ∃ a' l', parseField defs
          ⟨window s (f.wire ++ rest) n, a, some current, h.parent :: stack, some gds⟩ =
        .ok (.next ⟨window (s ++ f.wire) rest (n - f.wire.length), a', some a.maps.length,
          h.parent :: stack, some gds⟩) ∧
      KeyedList.put Field.takeOverMerge h.list (h.heading a.maps.length) = some l' ∧
      Opened a a' h.parent current ⟨h.next, l'⟩ li := by
  have after := u.filled (Arena.grown_store u.stocked u.inside ⟨none, li⟩) u.inside f.wire
  have size := Heap.length_store a current ⟨none, li⟩
  have apart : current ≠ h.parent := Nat.ne_of_gt u.low
  have inside := u.inside
  have inside' := Nat.lt_trans u.low u.inside
  obtain ⟨l, head, parentCell⟩ := after.heading
  obtain ⟨l', head'⟩ := KeyedList.exists_put_of_key head (x := h.heading a.maps.length) rfl
  have again := put_heading head rfl head'
  rw [← size] at room again
  obtain ⟨a', added, stocked', length', cells⟩ := Arena.addGroup_next after.stocked room
    parentCell (find_heading head) rfl rfl after.cell apart again
  rw [size] at added length' cells
  refine ⟨a', l', ?_, head', ⟨length', stocked', ?_, ?_, ?_, ?_⟩⟩
  · rw [u.close_round defs rest n stack sound hgd ends put fits, if_neg (Nat.not_le.mpr more),
      added]
    rfl
  · rw [cells, if_pos rfl]
  · rw [cells, if_neg apart, if_pos rfl]
  · rw [cells, if_neg (by omega), if_neg (by omega), if_pos rfl]
  · intro j hj other other'
    rw [cells, if_neg other, if_neg other', if_neg (Nat.ne_of_lt hj),
      Heap.cells_store a current j _ inside, if_neg (Ne.symm other')]

end Close

end Underway

end FastLittleMarket.Fix
