import FastLittleMarket.Fix.TreeParse

/-!
What a parsed tree says. A map holds exactly the fields of its node, and under each
count tag the instances of the block, in their order. This is read off the layout of
the maps alone.
-/

namespace FastLittleMarket.Fix

variable {maxMessageSize : Nat}

/-- The map holds the fields `own`, and groups under none but the tags of `blocks`. -/
structure Exactly (msg : FixMessage maxMessageSize) (map : Nat) (own : List RawField)
    (blocks : List FieldTag) : Prop where
  values : ∀ tag, msg.getString map tag =
    .ok ((KeyedList.lastOf RawField.tag tag own).map RawField.value)
  leaves : ∀ tag, tag ∉ blocks → ∀ i, msg.arena.getGroup map tag i = .ok none

/-- Under `tag` the map heads `n` groups, and these are the maps `ids`. -/
structure Heads (msg : FixMessage maxMessageSize) (map : Nat) (tag : FieldTag) (n : Nat)
    (ids : List Nat) : Prop where
  count : ∃ field, msg.arena.get map tag = .ok (some field) ∧
    msg.arena.groupCount field = .ok n
  groups : ∀ i, msg.arena.getGroup map tag i = .ok ids[i]?

mutual

/-- Below the map stand the blocks of the node. -/
def Node.Shown (msg : FixMessage maxMessageSize) (map : Nat) : Node → Prop
  | .nil => True
  | .field _ rest => rest.Shown msg map
  | .block gd _ instances rest =>
      (∃ ids, Heads msg map gd.groupCountTag instances.count ids ∧ instances.Shown msg ids) ∧
        rest.Shown msg map

def Instances.Shown (msg : FixMessage maxMessageSize) : List Nat → Instances → Prop
  | ids, .nil => ids = []
  | ids, .cons node endField rest =>
      ∃ map later, ids = map :: later ∧
        Exactly msg map (node.own ++ [endField]) node.blockTags ∧
        node.Shown msg map ∧ rest.Shown msg later

end

section Maps

variable {gds : List GroupDef}

theorem Instances.linked (is : Instances) {a : Arena maxMessageSize} {lo start : Nat}
    (laid : is.Laid a.cells lo start) :
    Chain.Linked a.next (is.ids lo).head? (is.ids lo) := by
  match is with
  | .nil => exact .null
  | .cons node endField rest =>
      obtain ⟨⟨l, -, cell⟩, -, later⟩ := laid
      have chain := Instances.linked rest later
      have next : a.next lo = (rest.ids (lo + node.size + 1)).head? := by
        rw [Heap.next_eq, cell]
        rfl
      rw [← next] at chain
      exact .cell chain

theorem Node.Valid.own_tag (node : Node) (valid : node.Valid gds) {f : RawField}
    (hf : f ∈ node.own) : GroupDefs.Plain gds f.tag ∨ f.tag ∈ node.blockTags := by
  match node with
  | .nil => exact absurd hf List.not_mem_nil
  | .field g rest =>
      rcases List.mem_cons.mp hf with rfl | inside
      · exact .inl valid.2.1
      · exact Node.Valid.own_tag rest valid.2.2 inside
  | .block gd count instances rest =>
      obtain ⟨-, field, -, -, -, valid⟩ := valid
      rcases List.mem_cons.mp hf with rfl | inside
      · exact .inr (by rw [field.tag]; exact List.mem_cons_self)
      · rcases Node.Valid.own_tag rest valid inside with plain | block
        · exact .inl plain
        · exact .inr (List.mem_cons_of_mem _ block)

theorem Node.Valid.groups_entries (node : Node) (valid : node.Valid gds) {lo start : Nat}
    {x : Field} (hx : x ∈ node.entries lo start) :
    x.groups = none ∨ x.tag ∈ node.blockTags := by
  match node with
  | .nil => exact absurd hx List.not_mem_nil
  | .field f rest =>
      rcases List.mem_cons.mp hx with rfl | inside
      · exact .inl rfl
      · exact Node.Valid.groups_entries rest valid.2.2 inside
  | .block gd count instances rest =>
      obtain ⟨-, field, -, -, -, valid⟩ := valid
      rcases List.mem_cons.mp hx with rfl | inside
      · exact .inr (by rw [Node.blockTags, ← field.tag]; exact List.mem_cons_self)
      · rcases Node.Valid.groups_entries rest valid inside with plain | block
        · exact .inl plain
        · exact .inr (List.mem_cons_of_mem _ block)

theorem Node.place_entries (node : Node) (lo start : Nat) :
    (node.entries lo start).map Field.place = (node.ownSpots start).map cutPlace := by
  match node with
  | .nil => rfl
  | .field f rest =>
      rw [Node.entries, Node.ownSpots, List.map_cons, List.map_cons, rest.place_entries]
      rfl
  | .block gd count instances rest =>
      rw [Node.entries, Node.ownSpots, List.map_cons, List.map_cons, rest.place_entries]
      rfl

theorem Node.mem_ownSpots (node : Node) {start : Nat} {p : Nat × RawField}
    (hp : p ∈ node.ownSpots start) : p ∈ spots start node.flat := by
  match node with
  | .nil => exact hp
  | .field f rest =>
      rcases List.mem_cons.mp hp with rfl | inside
      · exact List.mem_cons_self
      · exact List.mem_cons_of_mem _ (rest.mem_ownSpots inside)
  | .block gd count instances rest =>
      rw [Node.flat, spots, spots_append]
      rcases List.mem_cons.mp hp with rfl | inside
      · exact List.mem_cons_self
      · exact List.mem_cons_of_mem _ (List.mem_append_right _ (rest.mem_ownSpots inside))

theorem groups_none {l : FieldList} {xs : List Field} {tag : FieldTag}
    (stored : KeyedList.putAll Field.takeOverMerge KeyedList.empty xs = some l)
    (plain : ∀ x ∈ xs, x.tag = tag → x.groups = none) :
    ∀ x, l.find tag = some x → x.groups = none := by
  refine KeyedList.find_putAll_of_forall (P := fun x => x.groups = none) ?_ stored ?_ plain
  · intro y x hy hx
    simp [Field.takeOverMerge, Field.takeOver, hy, hx]
  · intro y hy
    cases hy

/-- The fields of a map, by what was put into it. -/
theorem exactly_of_stored {bytes : List UInt8} {a : Arena maxMessageSize} {map : Nat}
    {nx : Option Nat} {l : FieldList} {xs : List Field} {ps : List (Nat × RawField)}
    {blocks : List FieldTag} (cell : a.cells map = some ⟨nx, l⟩)
    (stored : KeyedList.putAll Field.takeOverMerge KeyedList.empty xs = some l)
    (same : xs.map Field.place = ps.map cutPlace) (legible : ∀ p ∈ ps, Legible bytes p)
    (groups : ∀ x ∈ xs, x.groups = none ∨ x.tag ∈ blocks) :
    Exactly ⟨bytes, a⟩ map (ps.map Prod.snd) blocks where
  values tag := getString_places a map stored same legible tag (Heap.get_cell cell)
  leaves := by
    intro tag other i
    have plain : ∀ x, l.find tag = some x → x.groups = none := by
      refine groups_none stored fun x hx key => ?_
      rcases groups x hx with plain | block
      · exact plain
      · exact absurd (key ▸ block) other
    unfold Heap.getGroup
    rw [Heap.get_cell cell]
    cases found : l.find tag with
    | none => rfl
    | some x =>
        have leaf : x.isGroup = false := by simp [Field.isGroup, plain x found]
        simp only [bind, Except.bind, leaf, Bool.not_false, if_true]
        rfl

theorem heads_of_linked (bytes : List UInt8) {a : Arena maxMessageSize} {map : Nat}
    {nx : Option Nat} {l : FieldList} {tag : FieldTag} {offset length first last : Nat}
    {ids : List Nat} (cell : a.cells map = some ⟨nx, l⟩)
    (found : l.find tag = some (Field.heading tag offset length first last))
    (chain : Chain.Linked a.next (some first) ids) (few : ids.length ≤ a.maps.length) :
    Heads ⟨bytes, a⟩ map tag ids.length ids where
  count := ⟨_, by rw [Heap.get_cell cell, found], Heap.groupCount_linked chain few⟩
  groups := by
    intro i
    unfold Heap.getGroup
    rw [Heap.get_cell cell, found, ← chain.nth_eq]
    rfl

theorem end_ne_count (distinct : (gds.flatMap fun gd => [gd.groupCountTag, gd.groupEndTag]).Nodup)
    {gd gd' : GroupDef} (hgd : gd ∈ gds) (hgd' : gd' ∈ gds) :
    gd.groupEndTag ≠ gd'.groupCountTag := by
  induction gds with
  | nil => exact absurd hgd List.not_mem_nil
  | cons g gds ih =>
      rw [List.flatMap_cons, List.nodup_append] at distinct
      obtain ⟨own, rest, apart⟩ := distinct
      rcases List.mem_cons.mp hgd with rfl | later
      · rcases List.mem_cons.mp hgd' with rfl | later'
        · exact fun same => by simp [same] at own
        · exact apart _ (by simp) _ (List.mem_flatMap.mpr ⟨gd', later', by simp⟩)
      · rcases List.mem_cons.mp hgd' with rfl | later'
        · exact (apart _ (by simp) _ (List.mem_flatMap.mpr ⟨gd, later, by simp⟩)).symm
        · exact ih rest later later'

mutual

/-- The blocks of a node are shown below its map. -/
theorem Node.shown (sound : GroupDefs.Sound gds) (node : Node) (valid : node.Valid gds)
    {bytes : List UInt8} {a : Arena maxMessageSize} {map : Nat} {nx : Option Nat}
    {l₀ l : FieldList} {extra : List Field} {lo start : Nat}
    (cell : a.cells map = some ⟨nx, l⟩)
    (put : KeyedList.putAll Field.takeOverMerge l₀ (node.entries lo start ++ extra) = some l)
    (foreign : ∀ x ∈ extra, x.tag ∉ node.blockTags) (laid : node.Laid a.cells lo start)
    (inside : lo + node.size ≤ a.maps.length)
    (legible : ∀ p ∈ spots start node.flat, Legible bytes p) :
    node.Shown ⟨bytes, a⟩ map := by
  match node with
  | .nil => trivial
  | .field f rest =>
      rw [Node.entries, List.cons_append, KeyedList.putAll] at put
      split at put
      · cases put
      · rename_i l₁ put₁
        rw [Node.flat, spots, List.forall_mem_cons] at legible
        exact Node.shown sound rest valid.2.2 cell put foreign laid inside legible.2
  | .block gd count instances rest =>
      obtain ⟨hgd, field, some_left, valid, apart, valid'⟩ := valid
      rw [Node.entries, List.cons_append, KeyedList.putAll, field.tag] at put
      split at put
      · cases put
      · rename_i l₁ put₁
        obtain ⟨first, later⟩ := laid
        rw [Node.flat, spots, List.forall_mem_cons, spots_append, List.forall_mem_append]
          at legible
        obtain ⟨-, legible₁, legible₂⟩ := legible
        simp only [Node.size] at inside
        have foreign' : ∀ x ∈ extra, x.tag ∉ rest.blockTags := fun x hx block =>
          foreign x hx (List.mem_cons_of_mem _ block)
        have others : ∀ x ∈ rest.entries (lo + instances.size)
            (start + count.wire.length + instances.wire.length) ++ extra,
              x.tag ≠ gd.groupCountTag := by
          intro x hx
          rcases List.mem_append.mp hx with own | added
          · have tag : x.tag ∈ rest.own.map RawField.tag := by
              rw [← rest.map_tag_entries]
              exact List.mem_map_of_mem own
            obtain ⟨f, hf, same⟩ := List.mem_map.mp tag
            rw [← same]
            rcases Node.Valid.own_tag rest valid' hf with plain | block
            · exact Ne.symm (plain.free gd hgd).1
            · exact fun equal => apart (equal ▸ block)
          · exact fun equal => foreign x added (equal ▸ List.mem_cons_self)
        have found : l.find gd.groupCountTag = _ :=
          (KeyedList.find_putAll_of_notMem put others).trans (find_heading put₁)
        have chain := Instances.linked instances first
        have few := instances.count_le_size
        rw [Instances.head_ids some_left] at chain
        refine ⟨⟨instances.ids lo, ?_, ?_⟩, ?_⟩
        · have heads := heads_of_linked bytes cell found chain
            (by rw [Instances.length_ids]; omega)
          rwa [Instances.length_ids] at heads
        · exact Instances.shown sound hgd instances valid first (by omega) legible₁
        · exact Node.shown sound rest valid' cell put foreign' later (by omega) legible₂

theorem Instances.shown (sound : GroupDefs.Sound gds) {gd : GroupDef} (hgd : gd ∈ gds)
    (is : Instances) (valid : is.Valid gds gd) {bytes : List UInt8} {a : Arena maxMessageSize}
    {lo start : Nat} (laid : is.Laid a.cells lo start) (inside : lo + is.size ≤ a.maps.length)
    (legible : ∀ p ∈ spots start is.flat, Legible bytes p) :
    is.Shown ⟨bytes, a⟩ (is.ids lo) := by
  match is with
  | .nil => rfl
  | .cons node endField rest =>
      obtain ⟨validNode, ends, -, valid'⟩ := valid
      obtain ⟨⟨l, put, cell⟩, laidNode, later⟩ := laid
      rw [Instances.flat, spots_append, spots, List.forall_mem_append, List.forall_mem_cons]
        at legible
      obtain ⟨legible₁, legibleEnd, legible₂⟩ := legible
      simp only [Instances.size] at inside
      have endTag : endField.tag ∉ node.blockTags := by
        intro block
        obtain ⟨gd', hgd', same⟩ := Node.Valid.blockTags node validNode block
        exact end_ne_count sound.distinct hgd hgd' (ends.tag.symm.trans same.symm)
      let ps := node.ownSpots start ++ [(start + node.wire.length, endField)]
      have places : (node.entries (lo + 1) start ++ [endEntry node endField start]).map
          Field.place = ps.map cutPlace := by
        rw [List.map_append, List.map_append, node.place_entries]
        rfl
      have own : ps.map Prod.snd = node.own ++ [endField] := by
        rw [List.map_append, node.map_ownSpots]
        rfl
      refine ⟨lo, rest.ids (lo + node.size + 1), rfl, ?_, ?_, ?_⟩
      · rw [← own]
        refine exactly_of_stored cell put places ?_ ?_
        · rw [List.forall_mem_append, List.forall_mem_singleton]
          exact ⟨fun p hp => legible₁ p (node.mem_ownSpots hp), legibleEnd⟩
        · rw [List.forall_mem_append, List.forall_mem_singleton]
          exact ⟨fun x hx => Node.Valid.groups_entries node validNode hx, .inl rfl⟩
      · refine Node.shown sound node validNode cell put ?_ laidNode (by omega) legible₁
        rw [List.forall_mem_singleton]
        exact endTag
      · exact Instances.shown sound hgd rest valid' later (by omega) legible₂

end

end Maps

end FastLittleMarket.Fix
