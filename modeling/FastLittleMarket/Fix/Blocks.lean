import FastLittleMarket.Fix.Groups

/-!
The parse of a tree. A node is stored in the current map, its blocks in maps of their
own; at the end of a block the current map is the one in which the block began. The
proof follows the tree, the pointers being known from the layout.
-/

namespace FastLittleMarket.Fix

open Cursor

variable {maxMessageSize : Nat}

structure CountField (gd : GroupDef) (n : Nat) (f : RawField) : Prop where
  delimited : f.Delimited
  tag : f.tag = gd.groupCountTag
  digits : ∀ c ∈ f.value, IsDigit c
  numeral : f.value ≠ []
  value : decimalFrom 0 f.value = n

structure EndField (gd : GroupDef) (f : RawField) : Prop where
  delimited : f.Delimited
  tag : f.tag = gd.groupEndTag

mutual

/-- A node over the definitions `gds`: fields that are in no group's way, and at most one
block, of at least one instance, for each definition. -/
def Node.Valid (gds : List GroupDef) : Node → Prop
  | .nil => True
  | .field f rest => f.Delimited ∧ GroupDefs.Plain gds f.tag ∧ rest.Valid gds
  | .block gd count instances rest =>
      gd ∈ gds ∧ CountField gd instances.count count ∧ instances.count ≠ 0 ∧
        instances.Valid gds gd ∧ gd.groupCountTag ∉ rest.blockTags ∧ rest.Valid gds

def Instances.Valid (gds : List GroupDef) (gd : GroupDef) : Instances → Prop
  | .nil => True
  | .cons node endField rest =>
      node.Valid gds ∧ EndField gd endField ∧
        ((node.own ++ [endField]).map RawField.tag).dedup.length ≤ fixMsgMaxFieldCount ∧
        rest.Valid gds gd

end

section Rounds

variable {gds : List GroupDef} {gd : GroupDef} {a a' : Arena maxMessageSize} {map : Nat}
  {nx : Option Nat} {l l' : FieldList} {f : RawField} {s : List UInt8} (defs : GroupDefs)
  (rest : List UInt8) (n : Nat) (stack : List Nat)

theorem plain_round (delimited : f.Delimited) (plain : GroupDefs.Plain gds f.tag)
    (cell : a.cells map = some ⟨nx, l⟩)
    (put : KeyedList.put Field.takeOverMerge l
      (Field.plain f.tag (f.token s.length).offset f.value.length) = some l')
    (fits : s.length + f.wire.length ≤ maxMessageSize) :
    parseField defs ⟨window s (f.wire ++ rest) n, a, some map, stack, some gds⟩ =
      .ok (.next ⟨window (s ++ f.wire) rest (n - f.wire.length), a.store map ⟨nx, l'⟩, some map,
        stack, some gds⟩) := by
  rw [parseField_field defs delimited plain.last plain.length rest n fits stack (some gds)
    (Heap.set_cell cell put), if_neg plain.type, groupStep]
  simp only [applyGroups_plain plain.free]
  rfl

theorem takeOver_plain {old : Field} (none_left : old.groups = none) (new : Field) :
    Field.takeOverMerge.merge old new = new := by
  simp [Field.takeOverMerge, Field.takeOver, none_left]

theorem takeOver_heading (old : Field) (tag : FieldTag) (offset length first last : Nat) :
    Field.takeOverMerge.merge old (Field.heading tag offset length first last) =
      Field.heading tag offset length first last := by
  simp [Field.takeOverMerge, Field.takeOver, Field.heading, Field.isGroup]

theorem put_heading {x : Field} {l₁ : FieldList} {tag : FieldTag} {offset length first last : Nat}
    (hx : KeyedList.put Field.takeOverMerge l x = some l₁) (same : x.tag = tag)
    (put : KeyedList.put Field.takeOverMerge l (Field.heading tag offset length first last) =
      some l') :
    KeyedList.put Field.takeOverMerge l₁ (Field.heading tag offset length first last) =
      some l' :=
  KeyedList.put_put hx put same
    (fun _ => by rw [takeOver_heading, takeOver_heading]) (takeOver_heading _ _ _ _ _ _)

theorem find_heading {tag : FieldTag} {offset length first last : Nat}
    (put : KeyedList.put Field.takeOverMerge l (Field.heading tag offset length first last) =
      some l') : l'.find tag = some (Field.heading tag offset length first last) := by
  have own : (Field.heading tag offset length first last).tag = tag := rfl
  rw [KeyedList.find_put put, if_pos own]
  cases l.find tag with
  | none => rfl
  | some old => simp only [Option.map_some, Option.getD_some, takeOver_heading]

theorem count_round (sound : GroupDefs.Sound gds) (hgd : gd ∈ gds) {k : Nat}
    (count : CountField gd k f) (stocked : a.Stocked)
    (room : Arena.RoomFor maxMessageSize (a.maps.length + 1))
    (cell : a.cells map = some ⟨nx, l⟩)
    (fresh : ∀ x, l.find gd.groupCountTag = some x → x.groups = none)
    (put : KeyedList.put Field.takeOverMerge l
      (Field.heading f.tag (f.token s.length).offset f.value.length a.maps.length
        a.maps.length) = some l')
    (fits : s.length + f.wire.length ≤ maxMessageSize) :
    ∃ a', parseField defs ⟨window s (f.wire ++ rest) n, a, some map, stack, some gds⟩ =
        .ok (.next ⟨window (s ++ f.wire) rest (n - f.wire.length), a', some a.maps.length,
          map :: stack, some gds⟩) ∧
      Arena.Grown a.maps.length (a.maps.length + 1) a a' map ⟨nx, l'⟩ ∧
      a'.cells a.maps.length = some FieldMap.new := by
  let plain := Field.plain f.tag (f.token s.length).offset f.value.length
  have inside := Heap.lt_of_cell cell
  obtain ⟨l₁, put₁⟩ := KeyedList.exists_put_of_key put (x := plain) rfl
  have grown := Arena.grown_store stocked inside ⟨nx, l₁⟩
  have size : (a.store map ⟨nx, l₁⟩).maps.length = a.maps.length := Heap.length_store _ _ _
  have found : l₁.find gd.groupCountTag = some plain := by
    have own : plain.tag = gd.groupCountTag := count.tag
    rw [KeyedList.find_put put₁, if_pos own]
    cases old : l.find gd.groupCountTag with
    | none => rfl
    | some x => simp only [Option.map_some, Option.getD_some, takeOver_plain (fresh x old)]
  have put₂ := put_heading put₁ rfl put
  rw [← size] at put₂ room
  obtain ⟨a', added, more, new⟩ :=
    Arena.addGroup_first grown.stocked room grown.cell found rfl put₂
  rw [size] at added more new
  refine ⟨a', ?_, grown.trans more (Nat.le_refl _), new⟩
  have notLast : f.tag ≠ .checkSum := by
    rw [count.tag]
    exact (sound.last gd hgd).1
  have notLength : f.tag ≠ .bodyLength := by
    rw [count.tag]
    exact (sound.length gd hgd).1
  have notType : f.tag ≠ .msgType := by
    rw [count.tag]
    exact (sound.type gd hgd).1
  rw [parseField_field defs count.delimited notLast notLength rest n fits stack (some gds)
    (Heap.set_cell cell put₁), if_neg notType, count.tag, groupStep]
  simp only [applyGroups_count sound.distinct hgd, added, bind, Except.bind, pure, Except.pure]
  rfl

theorem getIntOf_heading {tag : FieldTag} (known : tag ≠ .invalid)
    (bytes : List UInt8) (offset length first last : Nat) :
    Arena.getIntOf bytes (Field.heading tag offset length first last) =
      some <$> announced bytes offset length := by
  have full : (Field.heading tag offset length first last).isEmpty = false := by
    simp [Field.isEmpty, Field.heading, Field.plain, known]
  unfold Arena.getIntOf
  rw [full]
  simp [Field.heading, Field.plain, announced, UInt16.toNat_ofNat']

/-- An end field is stored in the map of its instance before the group is closed. -/
theorem end_round (sound : GroupDefs.Sound gds) (hgd : gd ∈ gds) (ends : EndField gd f)
    (cell : a.cells map = some ⟨nx, l⟩)
    (put : KeyedList.put Field.takeOverMerge l
      (Field.plain f.tag (f.token s.length).offset f.value.length) = some l')
    (fits : s.length + f.wire.length ≤ maxMessageSize) :
    parseField defs ⟨window s (f.wire ++ rest) n, a, some map, stack, some gds⟩ =
      Loop.Step.next <$> closeGroup ⟨window (s ++ f.wire) rest (n - f.wire.length),
        a.store map ⟨nx, l'⟩, some map, stack, some gds⟩ gd := by
  have notLast : f.tag ≠ .checkSum := by
    rw [ends.tag]
    exact (sound.last gd hgd).2
  have notLength : f.tag ≠ .bodyLength := by
    rw [ends.tag]
    exact (sound.length gd hgd).2
  have notType : f.tag ≠ .msgType := by
    rw [ends.tag]
    exact (sound.type gd hgd).2
  rw [parseField_field defs ends.delimited notLast notLength rest n fits stack (some gds)
    (Heap.set_cell cell put), if_neg notType, ends.tag, groupStep]
  simp only [applyGroups_end sound.distinct hgd]

end Rounds

section Reach

variable {gds : List GroupDef} {defs : GroupDefs}

theorem Node.Valid.blockTags (node : Node) (valid : node.Valid gds) {tag : FieldTag}
    (h : tag ∈ node.blockTags) : ∃ gd ∈ gds, gd.groupCountTag = tag := by
  match node with
  | .nil => exact absurd h List.not_mem_nil
  | .field f rest => exact Node.Valid.blockTags rest valid.2.2 h
  | .block gd count instances rest =>
      obtain ⟨hgd, -, -, -, -, later⟩ := valid
      rcases List.mem_cons.mp h with rfl | inside
      · exact ⟨gd, hgd, rfl⟩
      · exact Node.Valid.blockTags rest later inside

/-- The tags of an instance fit the field list of its map. -/
theorem instance_stored {node : Node} {endField : RawField}
    (few : ((node.own ++ [endField]).map RawField.tag).dedup.length ≤ fixMsgMaxFieldCount)
    (lo start : Nat) :
    ∃ l l' : FieldList,
      KeyedList.putAll Field.takeOverMerge KeyedList.empty (node.entries lo start) = some l ∧
      KeyedList.put Field.takeOverMerge l (endEntry node endField start) = some l' ∧
      KeyedList.putAll Field.takeOverMerge KeyedList.empty
        (node.entries lo start ++ [endEntry node endField start]) = some l' := by
  have tags : (node.entries lo start ++ [endEntry node endField start]).map Field.tag =
      (node.own ++ [endField]).map RawField.tag := by
    rw [List.map_append, List.map_append, Node.map_tag_entries]
    rfl
  rw [← tags] at few
  obtain ⟨l', whole⟩ := KeyedList.exists_putAll_iff.mpr few
  obtain ⟨l, front, last⟩ := KeyedList.exists_of_putAll_append whole
  rw [KeyedList.putAll_singleton] at last
  exact ⟨l, l', front, last, whole⟩

theorem Instances.count_le_size (is : Instances) : is.count ≤ is.size := by
  match is with
  | .nil => exact Nat.le_refl _
  | .cons node _ rest =>
      have later := rest.count_le_size
      simp only [Instances.count, Instances.size]
      omega

theorem announced_field {f : RawField} (digits : ∀ c ∈ f.value, IsDigit c)
    (numeral : f.value ≠ []) (small : decimalFrom 0 f.value < 2 ^ 31) {s : List UInt8}
    (near : (span (s.length, f)).1 < 2 ^ 16 ∧ (span (s.length, f)).2 < 2 ^ 16)
    (later : List UInt8) :
    announced (s ++ f.wire ++ later) (f.token s.length).offset f.value.length =
      .ok (decimalFrom 0 f.value : Int) := by
  have whole : s ++ f.wire ++ later =
      (s ++ f.text ++ [equals]) ++ (f.value ++ (soh :: later)) := by
    simp [RawField.wire]
  have place : (f.token s.length).offset = (s ++ f.text ++ [equals]).length := by
    simp only [RawField.token, List.length_append, List.length_singleton]
  have value := parseInt_decimal digits numeral small (s ++ f.text ++ [equals]) (soh :: later)
  rw [← whole, ← place] at value
  have offset : (f.token s.length).offset < 2 ^ 16 := near.1
  have length : f.value.length < 2 ^ 16 := near.2
  unfold announced
  rwa [Nat.mod_eq_of_lt offset, Nat.mod_eq_of_lt length]

end Reach

end FastLittleMarket.Fix
