import FastLittleMarket.Fix.Heap
import FastLittleMarket.Fix.Tree

/-!
The rounds of the parse loop that concern groups: a count field opens a map, an end
field closes one or opens the next. Each round is described by the maps it changes.
-/

namespace FastLittleMarket.Fix

open Cursor

variable {maxMessageSize : Nat}

/-- Group definitions whose tags the parser tells apart, from each other and from the
fields it treats by itself. A count field with the tag of an unknown text counts as empty. -/
structure GroupDefs.Sound (gds : List GroupDef) : Prop where
  distinct : (gds.flatMap fun gd => [gd.groupCountTag, gd.groupEndTag]).Nodup
  type : ∀ gd ∈ gds, gd.groupCountTag ≠ .msgType ∧ gd.groupEndTag ≠ .msgType
  length : ∀ gd ∈ gds, gd.groupCountTag ≠ .bodyLength ∧ gd.groupEndTag ≠ .bodyLength
  last : ∀ gd ∈ gds, gd.groupCountTag ≠ .checkSum ∧ gd.groupEndTag ≠ .checkSum
  known : ∀ gd ∈ gds, gd.groupCountTag ≠ .invalid

/-- A tag that no group definition and no special treatment is about. -/
structure GroupDefs.Plain (gds : List GroupDef) (tag : FieldTag) : Prop where
  free : ∀ gd ∈ gds, gd.groupCountTag ≠ tag ∧ gd.groupEndTag ≠ tag
  type : tag ≠ .msgType
  length : tag ≠ .bodyLength
  last : tag ≠ .checkSum

section Apply

variable {gds : List GroupDef} {gd : GroupDef} {map : Nat} {tag : FieldTag}
  {st : ParseState maxMessageSize}

theorem applyGroups_plain (free : ∀ gd ∈ gds, gd.groupCountTag ≠ tag ∧ gd.groupEndTag ≠ tag) :
    applyGroups map tag st gds = .ok st := by
  induction gds with
  | nil => rfl
  | cons gd gds ih =>
      obtain ⟨notCount, notEnd⟩ := free gd (by simp)
      rw [applyGroups, if_neg notCount, if_neg notEnd]
      exact ih fun gd' h => free gd' (by simp [h])

theorem applyGroups_count
    (distinct : (gds.flatMap fun gd => [gd.groupCountTag, gd.groupEndTag]).Nodup)
    (hgd : gd ∈ gds) :
    applyGroups map gd.groupCountTag st gds =
      (do
        let (group, arena) ← st.arena.addGroup map gd.groupCountTag
        pure { st with map := group, arena := arena, stack := map :: st.stack }) := by
  induction gds with
  | nil => exact absurd hgd List.not_mem_nil
  | cons g gds ih =>
      rcases List.mem_cons.mp hgd with rfl | later
      · rw [applyGroups, if_pos rfl]
      · rw [List.flatMap_cons, List.nodup_append] at distinct
        obtain ⟨-, rest, apart⟩ := distinct
        have inside : gd.groupCountTag ∈
            gds.flatMap fun gd => [gd.groupCountTag, gd.groupEndTag] :=
          List.mem_flatMap.mpr ⟨gd, later, by simp⟩
        rw [applyGroups, if_neg (apart g.groupCountTag (by simp) _ inside),
          if_neg (apart g.groupEndTag (by simp) _ inside)]
        exact ih rest later

theorem applyGroups_end
    (distinct : (gds.flatMap fun gd => [gd.groupCountTag, gd.groupEndTag]).Nodup)
    (hgd : gd ∈ gds) :
    applyGroups map gd.groupEndTag st gds = closeGroup st gd := by
  induction gds with
  | nil => exact absurd hgd List.not_mem_nil
  | cons g gds ih =>
      rw [List.flatMap_cons, List.nodup_append] at distinct
      obtain ⟨own, rest, apart⟩ := distinct
      rcases List.mem_cons.mp hgd with rfl | later
      · have differ : gd.groupCountTag ≠ gd.groupEndTag := by simpa using own
        rw [applyGroups, if_neg differ, if_pos rfl]
      · have inside : gd.groupEndTag ∈
            gds.flatMap fun gd => [gd.groupCountTag, gd.groupEndTag] :=
          List.mem_flatMap.mpr ⟨gd, later, by simp⟩
        rw [applyGroups, if_neg (apart g.groupCountTag (by simp) _ inside),
          if_neg (apart g.groupEndTag (by simp) _ inside)]
        exact ih rest later

end Apply

section Cells

namespace Arena

/-- The buffer has handed out the maps and the message bytes. -/
def Stocked (a : Arena maxMessageSize) : Prop :=
  a.buf.used = sizeofFieldMap * a.maps.length + maxMessageSize

/-- The buffer has room for maps up to `count` in all. -/
def RoomFor (maxMessageSize count : Nat) : Prop :=
  sizeofFieldMap * count + maxMessageSize ≤ 4 * maxMessageSize

/-- Of the maps below `lo` only `id` has changed, and there are `hi` maps now. -/
structure Grown (lo hi : Nat) (a a' : Arena maxMessageSize) (id : Nat) (fm : FieldMap) :
    Prop where
  length : a'.maps.length = hi
  stocked : Stocked a'
  cell : a'.cells id = some fm
  others : ∀ j < lo, j ≠ id → a'.cells j = a.cells j

variable {a a' a'' b : Arena maxMessageSize} {id lo lo' hi hi' : Nat} {fm : FieldMap}

theorem Grown.trans (h : Grown lo hi a a' id fm) {fm' : FieldMap}
    (h' : Grown lo' hi' a' a'' id fm') (le : lo ≤ lo') : Grown lo hi' a a'' id fm' where
  length := h'.length
  stocked := h'.stocked
  cell := h'.cell
  others j hj hne := (h'.others j (Nat.lt_of_lt_of_le hj le) hne).trans (h.others j hj hne)

theorem Grown.linked (h : Grown lo hi a a' id fm) {p : Option Nat} {ids : List Nat}
    (chain : Chain.Linked a.next p ids) (below : ∀ j ∈ ids, j < lo) (kept : fm.next = a.next id) :
    Chain.Linked a'.next p ids := by
  refine chain.frame fun j hj => ?_
  by_cases same : j = id
  · rw [same, ← kept, Heap.next_eq, h.cell]
    rfl
  · rw [Heap.next_eq, Heap.next_eq, h.others j (below j hj) same]

theorem stocked_store (h : Stocked a) (id : Nat) (fm : FieldMap) : Stocked (a.store id fm) := by
  unfold Stocked at h ⊢
  rw [Heap.length_store]
  exact h

theorem grown_store (stocked : Stocked a) (inside : id < a.maps.length) (fm : FieldMap) :
    Grown a.maps.length a.maps.length a (a.store id fm) id fm where
  length := a.length_store id fm
  stocked := stocked_store stocked id fm
  cell := Heap.cell_store inside fm
  others j _ hne := by rw [a.cells_store id j fm inside, if_neg (Ne.symm hne)]

theorem exists_carve (stocked : Stocked a) (room : RoomFor maxMessageSize (a.maps.length + 1)) :
    ∃ b, a.carve = some b ∧ Stocked b := by
  unfold Stocked at stocked
  unfold RoomFor at room
  have fits : a.buf.used + sizeofFieldMap ≤ 4 * maxMessageSize := by
    rw [stocked]
    have more : sizeofFieldMap * (a.maps.length + 1) =
        sizeofFieldMap * a.maps.length + sizeofFieldMap := Nat.mul_succ _ _
    omega
  obtain ⟨buf, granted, used⟩ := MessageBuffer.exists_allocate sizeofFieldMap_le fits
  refine ⟨⟨buf, a.maps ++ [FieldMap.new]⟩, congrArg (Option.map _) granted, ?_⟩
  unfold Stocked
  rw [used, stocked, List.length_append, List.length_singleton, Nat.mul_succ]
  omega

theorem carve_full (stocked : Stocked a)
    (full : ¬ RoomFor maxMessageSize (a.maps.length + 1)) : a.carve = none := by
  unfold Stocked at stocked
  unfold RoomFor at full
  rw [Nat.mul_succ] at full
  refine congrArg (Option.map _) ((MessageBuffer.allocate_eq_none sizeofFieldMap_le).mpr ?_)
  omega

variable {nx : Option Nat} {l l' : FieldList} {f : Field} {tag : FieldTag}

theorem addGroup_first (stocked : Stocked a)
    (room : RoomFor maxMessageSize (a.maps.length + 1)) (cell : a.cells id = some ⟨nx, l⟩)
    (found : l.find tag = some f) (plain : f.groups = none)
    (put : KeyedList.put Field.takeOverMerge l (f.extended a.maps.length) = some l') :
    ∃ a', a.addGroup id tag = .ok (some a.maps.length, a') ∧
      Grown a.maps.length (a.maps.length + 1) a a' id ⟨nx, l'⟩ ∧
      a'.cells a.maps.length = some FieldMap.new := by
  obtain ⟨b, carved, stocked'⟩ := exists_carve stocked room
  have size := Heap.length_carve carved
  have inside := Heap.lt_of_cell cell
  have within : id < b.maps.length := by omega
  refine ⟨_, Heap.addGroup_first carved cell found plain put, ⟨?_, ?_, ?_, ?_⟩, ?_⟩
  · rw [Heap.length_store, size]
  · exact stocked_store stocked' id _
  · exact Heap.cell_store within _
  · intro j hj hne
    rw [b.cells_store id j _ within, if_neg (Ne.symm hne), Heap.cells_carve carved,
      if_neg (Nat.ne_of_lt hj)]
  · rw [b.cells_store id _ _ within, if_neg (Nat.ne_of_lt inside), Heap.cells_carve carved,
      if_pos rfl]

theorem addGroup_next {t : Nat} {last : FieldMap} (stocked : Stocked a)
    (room : RoomFor maxMessageSize (a.maps.length + 1)) (cell : a.cells id = some ⟨nx, l⟩)
    (found : l.find tag = some f) (group : f.groups.isSome) (tail : f.tail = some t)
    (lastCell : a.cells t = some last) (apart : t ≠ id)
    (put : KeyedList.put Field.takeOverMerge l (f.extended a.maps.length) = some l') :
    ∃ a', a.addGroup id tag = .ok (some a.maps.length, a') ∧ Stocked a' ∧
      a'.maps.length = a.maps.length + 1 ∧
      ∀ j, a'.cells j =
        if j = id then some ⟨nx, l'⟩
        else if j = t then some { last with next := some a.maps.length }
        else if j = a.maps.length then some FieldMap.new
        else a.cells j := by
  obtain ⟨b, carved, stocked'⟩ := exists_carve stocked room
  have size := Heap.length_carve carved
  have inside := Heap.lt_of_cell cell
  have insideLast := Heap.lt_of_cell lastCell
  let c := b.store t { last with next := some a.maps.length }
  have size' : c.maps.length = a.maps.length + 1 := by rw [Heap.length_store, size]
  refine ⟨_, Heap.addGroup_next carved cell found group tail lastCell apart put, ?_, ?_, ?_⟩
  · exact stocked_store (stocked_store stocked' _ _) _ _
  · rw [Heap.length_store, size']
  · intro j
    rw [c.cells_store id j _ (by omega), b.cells_store t j _ (by omega), Heap.cells_carve carved]
    simp only [eq_comm]

end Arena

end Cells

theorem closeGroup_eq {gd : GroupDef} {stack : List Nat} (st : ParseState maxMessageSize)
    {parent : Nat} {x : Field} {k : Nat} {v : Option Int} (opened : st.stack = parent :: stack)
    (found : st.arena.get parent gd.groupCountTag = .ok (some x))
    (expected : Arena.getIntOf st.cursor.bytes x = .ok v)
    (received : st.arena.groupCount x = .ok k) :
    closeGroup st gd =
      if (k : Int) ≥ v.getD 0 then .ok { st with map := some parent, stack := stack }
      else
        (do
          let (group, arena) ← st.arena.addGroup parent gd.groupCountTag
          pure { st with map := group, arena := arena }) := by
  unfold closeGroup
  rw [opened]
  simp only [found, expected, received, bind, Except.bind, pure, Except.pure]

end FastLittleMarket.Fix
