import FastLittleMarket.Fix.Siblings

/-!
The parse of a tree, by induction on the tree: a node from any state whose current map
can take its fields, and the instances of a block from any state whose current map is
the new one of the first of them.
-/

namespace FastLittleMarket.Fix

open Cursor

variable {maxMessageSize : Nat}

theorem Arena.RoomFor.mono {m n : Nat} (h : Arena.RoomFor maxMessageSize n) (le : m ≤ n) :
    Arena.RoomFor maxMessageSize m := by
  have less : sizeofFieldMap * m ≤ sizeofFieldMap * n := Nat.mul_le_mul_left _ le
  unfold Arena.RoomFor at h ⊢
  omega

theorem Arena.RoomFor.small {n : Nat} (h : Arena.RoomFor maxMessageSize n)
    (admits : Admits maxMessageSize) : n < 2 ^ 31 := by
  have int := admits.int
  unfold Arena.RoomFor sizeofFieldMap at h
  omega

theorem Instances.eq_nil {is : Instances} (h : is.count = 0) : is = .nil := by
  cases is with
  | nil => rfl
  | cons node endField rest => cases h

theorem reaches_append {defs : GroupDefs} {j k : Nat} {s v w rest : List UInt8} {n : Nat}
    {a b c : Arena maxMessageSize} {map map₁ map₂ : Option Nat} {stack stack₁ stack₂ : List Nat}
    {groups groups₁ groups₂ : Option (List GroupDef)}
    (first : Loop.Reaches (parseField defs) j
      ⟨window s (v ++ (w ++ rest)) n, a, map, stack, groups⟩
      ⟨window (s ++ v) (w ++ rest) (n - v.length), b, map₁, stack₁, groups₁⟩)
    (second : Loop.Reaches (parseField defs) k
      ⟨window (s ++ v) (w ++ rest) (n - v.length), b, map₁, stack₁, groups₁⟩
      ⟨window (s ++ v ++ w) rest (n - v.length - w.length), c, map₂, stack₂, groups₂⟩) :
    Loop.Reaches (parseField defs) (j + k)
      ⟨window s (v ++ w ++ rest) n, a, map, stack, groups⟩
      ⟨window (s ++ (v ++ w)) rest (n - (v ++ w).length), c, map₂, stack₂, groups₂⟩ := by
  rw [List.append_assoc, ← List.append_assoc s, List.length_append, ← Nat.sub_sub]
  exact first.trans second

/-- The current map takes the fields of the node, which make `l'` of what it holds, and the
arena and the message have room for the node. -/
structure Node.Ready (node : Node) (a : Arena maxMessageSize) (map : Nat) (nx : Option Nat)
    (l l' : FieldList) (s : List UInt8) : Prop where
  stocked : a.Stocked
  room : Arena.RoomFor maxMessageSize (a.maps.length + node.size)
  cell : a.cells map = some ⟨nx, l⟩
  fresh : ∀ tag ∈ node.blockTags, ∀ x, l.find tag = some x → x.groups = none
  put : KeyedList.putAll Field.takeOverMerge l (node.entries a.maps.length s.length) = some l'
  near : NearFrom s.length node.flat
  fits : s.length + node.wire.length ≤ maxMessageSize

/-- The block is at its first of these instances, and the last of them heads it with `l'`. -/
structure Instances.Ready (is : Instances) (h : BlockHead) (a : Arena maxMessageSize)
    (before : List Nat) (current : Nat) (l' : FieldList) (s : List UInt8) : Prop where
  underway : Underway h a before current KeyedList.empty s
  size : a.maps.length = current + 1
  count : before.length + is.count = h.count
  room : Arena.RoomFor maxMessageSize (current + is.size)
  final : KeyedList.put Field.takeOverMerge h.list (h.heading (is.last current)) = some l'
  near : NearFrom s.length is.flat
  fits : s.length + is.wire.length ≤ maxMessageSize

section Parsed

variable (maxMessageSize) (defs : GroupDefs) (gds : List GroupDef)

/-- From every state that is ready for it, the node is parsed into its maps. -/
def Node.Parsed (node : Node) : Prop :=
  ∀ ⦃a : Arena maxMessageSize⦄ ⦃map : Nat⦄ ⦃nx : Option Nat⦄ ⦃l l' : FieldList⦄
    ⦃s : List UInt8⦄, node.Ready a map nx l l' s → ∀ (rest : List UInt8) (n : Nat)
    (stack : List Nat), ∃ a',
    Loop.Reaches (parseField defs) node.flat.length
      ⟨window s (node.wire ++ rest) n, a, some map, stack, some gds⟩
      ⟨window (s ++ node.wire) rest (n - node.wire.length), a', some map, stack, some gds⟩ ∧
    Arena.Grown a.maps.length (a.maps.length + node.size) a a' map ⟨nx, l'⟩ ∧
    node.Laid a'.cells a.maps.length s.length

def Instances.Parsed (gd : GroupDef) (is : Instances) : Prop :=
  ∀ ⦃h : BlockHead⦄ ⦃a : Arena maxMessageSize⦄ ⦃before : List Nat⦄ ⦃current : Nat⦄
    ⦃l' : FieldList⦄ ⦃s : List UInt8⦄, h.gd = gd → is.Ready h a before current l' s →
    ∀ (rest : List UInt8) (n : Nat) (stack : List Nat), ∃ a',
    Loop.Reaches (parseField defs) is.flat.length
      ⟨window s (is.wire ++ rest) n, a, some current, h.parent :: stack, some gds⟩
      ⟨window (s ++ is.wire) rest (n - is.wire.length), a', some h.parent, stack, some gds⟩ ∧
    Arena.Grown current (current + is.size) a a' h.parent ⟨h.next, l'⟩ ∧
    is.Laid a'.cells current s.length

end Parsed

variable {defs : GroupDefs} {gds : List GroupDef}

theorem Node.parsed_nil : Node.nil.Parsed maxMessageSize defs gds := by
  intro a map nx l l' s ready rest n stack
  obtain rfl := Option.some.inj ready.put
  refine ⟨a, ?_, ⟨rfl, ready.stocked, ready.cell, fun _ _ _ => rfl⟩, trivial⟩
  simpa [Node.wire, Node.flat] using Loop.Reaches.here _

theorem Node.parsed_field {f : RawField} {later : Node}
    (valid : (Node.field f later).Valid gds) (parsed : later.Parsed maxMessageSize defs gds) :
    (Node.field f later).Parsed maxMessageSize defs gds := by
  intro a map nx l l' s ⟨stocked, room, cell, fresh, put, near, fits⟩ rest n stack
  obtain ⟨delimited, plain, valid⟩ := valid
  rw [Node.flat, nearFrom_cons] at near
  rw [Node.wire_field, List.length_append] at fits
  simp only [Node.entries, KeyedList.putAll] at put
  split at put
  · cases put
  · rename_i l₁ put₁
    have inside := Heap.lt_of_cell cell
    have grown := Arena.grown_store stocked inside ⟨nx, l₁⟩
    have size := Heap.length_store a map ⟨nx, l₁⟩
    have start : (s ++ f.wire).length = s.length + f.wire.length := List.length_append
    have round := plain_round defs (later.wire ++ rest) n stack delimited plain cell put₁
      (by omega)
    have fresh₁ : ∀ tag ∈ later.blockTags, ∀ x, l₁.find tag = some x → x.groups = none := by
      intro tag htag x hx
      obtain ⟨gd, hgd, rfl⟩ := Node.Valid.blockTags later valid htag
      have other : f.tag ≠ gd.groupCountTag := Ne.symm (plain.free gd hgd).1
      rw [KeyedList.find_put_of_ne put₁ other] at hx
      exact fresh _ htag x hx
    have ready : later.Ready (a.store map ⟨nx, l₁⟩) map nx l₁ l' (s ++ f.wire) :=
      { stocked := grown.stocked
        room := by
          rw [size]
          exact room
        cell := grown.cell
        fresh := fresh₁
        put := by rwa [size, start]
        near := by
          rw [start]
          exact near.2
        fits := by
          rw [start]
          omega }
    obtain ⟨a', run, more, laid⟩ := parsed ready rest (n - f.wire.length) stack
    rw [size, start] at laid
    rw [size] at more
    refine ⟨a', ?_, grown.trans more (Nat.le_refl _), laid⟩
    rw [Node.wire_field, Node.flat, List.length_cons, Nat.add_comm]
    exact reaches_append (.one round) run

/-- The head of the block of `k` instances that the field `count` starts at `start`. -/
def BlockHead.ofCount (gd : GroupDef) (count : RawField) (k map : Nat) (nx : Option Nat)
    (l : FieldList) (start lo : Nat) : BlockHead :=
  ⟨gd, map, nx, l, (count.token start).offset, count.value.length, lo, k⟩

section Block

variable {gd : GroupDef} {count : RawField} {instances : Instances} {later : Node}
  {a : Arena maxMessageSize} {map : Nat} {nx : Option Nat} {l l' : FieldList} {s : List UInt8}

theorem Node.Ready.opens (ready : (Node.block gd count instances later).Ready a map nx l l' s)
    (sound : GroupDefs.Sound gds) (hgd : gd ∈ gds) (field : CountField gd instances.count count)
    (some_left : instances.count ≠ 0) (rest : List UInt8) (n : Nat) (stack : List Nat) :
    ∃ a₁ l₁ l₂,
      parseField defs ⟨window s (count.wire ++ rest) n, a, some map, stack, some gds⟩ =
        .ok (.next ⟨window (s ++ count.wire) rest (n - count.wire.length), a₁,
          some a.maps.length, map :: stack, some gds⟩) ∧
      Arena.Grown a.maps.length (a.maps.length + 1) a a₁ map ⟨nx, l₁⟩ ∧
      instances.Ready (.ofCount gd count instances.count map nx l s.length a.maps.length) a₁ []
        a.maps.length l₂ (s ++ count.wire) ∧
      KeyedList.putAll Field.takeOverMerge l₂ (later.entries (a.maps.length + instances.size)
        (s.length + count.wire.length + instances.wire.length)) = some l' := by
  obtain ⟨stocked, room, cell, fresh, put, near, fits⟩ := ready
  have key : count.tag = gd.groupCountTag := field.tag
  rw [Node.flat, nearFrom_cons, nearFrom_append] at near
  obtain ⟨nearCount, nearInstances, -⟩ := near
  rw [Node.wire_block, List.length_append, List.length_append] at fits
  simp only [Node.size] at room
  have few := instances.count_le_size
  have positive := Nat.pos_of_ne_zero some_left
  simp only [Node.entries, KeyedList.putAll] at put
  split at put
  · cases put
  · rename_i l₂ put₂
    have start : (s ++ count.wire).length = s.length + count.wire.length := List.length_append
    obtain ⟨l₁, put₁⟩ := KeyedList.exists_put_of_key put₂
      (x := Field.heading count.tag (count.token s.length).offset count.value.length
        a.maps.length a.maps.length) rfl
    obtain ⟨a₁, round, opened, new⟩ := count_round defs rest n stack sound hgd field stocked
      (room.mono (by omega)) cell (fresh _ (by simp [Node.blockTags])) put₁ (by omega)
    have small : instances.count < 2 ^ 31 := by
      have bound := room.small a.buf.admits
      omega
    rw [key] at put₁ put₂
    have underway : Underway
        (.ofCount gd count instances.count map nx l s.length a.maps.length) a₁ []
        a.maps.length KeyedList.empty (s ++ count.wire) := by
      refine .start opened.stocked new ⟨l₁, put₁, opened.cell⟩ rfl (Heap.lt_of_cell cell) ?_
      intro later
      have value := field.value
      rw [← value] at small
      have number := announced_field field.digits field.numeral small nearCount later
      rwa [value] at number
    refine ⟨a₁, l₁, l₂, round, opened, ?_, put⟩
    exact
      { underway := underway
        size := opened.length
        count := Nat.zero_add _
        room := room.mono (by omega)
        final := put₂
        near := by
          rw [start]
          exact nearInstances
        fits := by
          rw [start]
          omega }

theorem Node.parsed_block (sound : GroupDefs.Sound gds)
    (valid : (Node.block gd count instances later).Valid gds)
    (each : instances.Parsed maxMessageSize defs gds gd)
    (parsed : later.Parsed maxMessageSize defs gds) :
    (Node.block gd count instances later).Parsed maxMessageSize defs gds := by
  intro a map nx l l' s ready rest n stack
  obtain ⟨hgd, field, some_left, -, apart, -⟩ := valid
  obtain ⟨a₁, l₁, l₂, round, opened, first, put⟩ := ready.opens sound hgd field some_left
    (instances.wire ++ later.wire ++ rest) n stack
  obtain ⟨a₂, run, filled, laid⟩ := each rfl first (later.wire ++ rest)
    (n - count.wire.length) stack
  have start : (s ++ count.wire).length = s.length + count.wire.length := List.length_append
  have start' : (s ++ count.wire ++ instances.wire).length =
      s.length + count.wire.length + instances.wire.length := by
    rw [List.length_append, start]
  have fits := ready.fits
  rw [Node.wire_block, List.length_append, List.length_append] at fits
  have near := ready.near
  rw [Node.flat, nearFrom_cons, nearFrom_append] at near
  have behind : later.Ready a₂ map nx l₂ l' (s ++ count.wire ++ instances.wire) :=
    { stocked := filled.stocked
      room := by
        rw [filled.length, Nat.add_assoc]
        exact ready.room
      cell := filled.cell
      fresh := by
        intro tag htag x hx
        have other : gd.groupCountTag ≠ tag := fun same => apart (same ▸ htag)
        rw [KeyedList.find_put_of_ne first.final other] at hx
        exact ready.fresh tag (by simp [Node.blockTags, htag]) x hx
      put := by rwa [filled.length, start']
      near := by
        rw [start']
        exact near.2.2
      fits := by
        rw [start']
        omega }
  obtain ⟨a₃, run', more, laid'⟩ := parsed behind rest
    (n - count.wire.length - instances.wire.length) stack
  rw [filled.length] at more laid'
  rw [start] at laid
  rw [start'] at laid'
  have inside := Heap.lt_of_cell ready.cell
  have kept : instances.Laid a₃.cells a.maps.length (s.length + count.wire.length) :=
    Instances.Laid.frame instances laid fun j low high => more.others j high (by omega)
  have grown := (opened.trans filled (Nat.le_refl _)).trans more (Nat.le_add_right _ _)
  rw [Nat.add_assoc] at grown
  refine ⟨a₃, ?_, grown, kept, laid'⟩
  rw [Node.wire_block, Node.flat, List.length_cons, List.length_append, Nat.add_comm]
  exact reaches_append (.one round) (reaches_append run run')

end Block

section Each

variable {node : Node} {endField : RawField} {later : Instances} {h : BlockHead}
  {a : Arena maxMessageSize} {before : List Nat} {current : Nat} {l' : FieldList}
  {s : List UInt8}

theorem Instances.Ready.node_ready
    (ready : (Instances.cons node endField later).Ready h a before current l' s) {own : FieldList}
    (put : KeyedList.putAll Field.takeOverMerge KeyedList.empty
      (node.entries (current + 1) s.length) = some own) :
    node.Ready a current none KeyedList.empty own s := by
  obtain ⟨underway, size, -, room, -, near, fits⟩ := ready
  rw [Instances.flat, nearFrom_append] at near
  rw [Instances.wire_cons, List.length_append] at fits
  simp only [Instances.size] at room
  exact
    { stocked := underway.stocked
      room := room.mono (by omega)
      cell := underway.cell
      fresh := fun tag _ x hx => by cases hx
      put := by rwa [size]
      near := near.1
      fits := by omega }

theorem Instances.parsed_last {gd : GroupDef} (sound : GroupDefs.Sound gds) (hgd : gd ∈ gds)
    (valid : (Instances.cons node endField .nil).Valid gds gd)
    (parsed : node.Parsed maxMessageSize defs gds) :
    (Instances.cons node endField .nil).Parsed maxMessageSize defs gds gd := by
  rintro h a before current l' s rfl ready rest n stack
  obtain ⟨-, ends, few, -⟩ := valid
  obtain ⟨own, li, putNode, putEnd, whole⟩ := instance_stored few (current + 1) s.length
  obtain ⟨a₁, run, grown, laid⟩ := parsed (ready.node_ready putNode) (endField.wire ++ rest) n
    (h.parent :: stack)
  obtain ⟨underway, size, count, -, final, -, fits⟩ := ready
  rw [size] at grown laid
  rw [Instances.wire_cons, List.length_append, List.length_append] at fits
  simp only [Instances.count] at count
  have start : (s ++ node.wire).length = s.length + node.wire.length := List.length_append
  rw [endEntry, ← start] at putEnd
  have low := underway.low
  have underway₁ := underway.filled grown (by omega) node.wire
  have inside := underway₁.inside
  obtain ⟨l, head, cell⟩ := underway₁.heading
  rw [Instances.last, head] at final
  obtain rfl := Option.some.inj final
  have round := underway₁.close_last defs rest (n - node.wire.length) stack sound hgd ends
    putEnd (by rw [start]; omega) (by omega)
  refine ⟨a₁.store current ⟨none, li⟩, ?_, ⟨?_, ?_, ?_, ?_⟩, ⟨li, whole, ?_⟩, ?_, trivial⟩
  · simpa [Instances.flat, Instances.wire, Instances.wire_cons, wireAll_append, Node.wire] using
      reaches_append run (.one round)
  · rw [Heap.length_store, grown.length, Instances.size, Instances.size]
    omega
  · exact Arena.stocked_store grown.stocked current _
  · rw [Heap.cells_store a₁ current h.parent _ inside, if_neg (Nat.ne_of_gt low), cell]
  · intro j hj other
    rw [Heap.cells_store a₁ current j _ inside, if_neg (by omega),
      grown.others j (by omega) (by omega)]
  · rw [Heap.cells_store a₁ current current _ inside, if_pos rfl]
    rfl
  · refine Node.Laid.frame node laid fun j high _ => ?_
    rw [Heap.cells_store a₁ current j _ inside, if_neg (by omega)]

theorem Instances.parsed_more {gd : GroupDef} (sound : GroupDefs.Sound gds) (hgd : gd ∈ gds)
    (valid : (Instances.cons node endField later).Valid gds gd) (some_left : later.count ≠ 0)
    (parsed : node.Parsed maxMessageSize defs gds)
    (each : later.Parsed maxMessageSize defs gds gd) :
    (Instances.cons node endField later).Parsed maxMessageSize defs gds gd := by
  rintro h a before current l' s rfl ready rest n stack
  obtain ⟨-, ends, few, -⟩ := valid
  obtain ⟨own, li, putNode, putEnd, whole⟩ := instance_stored few (current + 1) s.length
  obtain ⟨a₁, run, grown, laid⟩ := parsed (ready.node_ready putNode)
    (endField.wire ++ later.wire ++ rest) n (h.parent :: stack)
  obtain ⟨underway, size, count, room, final, near, fits⟩ := ready
  rw [size] at grown laid
  rw [Instances.flat, nearFrom_append, nearFrom_cons] at near
  rw [Instances.wire_cons, List.length_append, List.length_append] at fits
  rw [Instances.count] at count
  simp only [Instances.size] at room
  have start : (s ++ node.wire).length = s.length + node.wire.length := List.length_append
  have start' : (s ++ node.wire ++ endField.wire).length =
      s.length + node.wire.length + endField.wire.length := by
    rw [List.length_append, start]
  rw [endEntry, ← start] at putEnd
  have low := underway.low
  have underway₁ := underway.filled grown (by omega) node.wire
  have place : a₁.maps.length = current + node.size + 1 := by
    have known := grown.length
    omega
  have more_maps := later.count_le_size
  rw [List.append_assoc endField.wire] at run
  obtain ⟨a₂, l, round, head, opened⟩ := underway₁.close_more defs (later.wire ++ rest)
    (n - node.wire.length) stack sound hgd ends (room.mono (by omega)) putEnd
    (by rw [start]; omega) (by omega)
  have next : later.Ready h a₂ (before ++ [current]) a₁.maps.length l'
      (s ++ node.wire ++ endField.wire) :=
    { underway := underway₁.opened head opened endField.wire
      size := opened.length
      count := by
        rw [List.length_append, List.length_singleton]
        omega
      room := room.mono (by omega)
      final := by rwa [Instances.last_cons, if_neg some_left, ← place] at final
      near := by
        rw [start']
        exact near.2.2
      fits := by
        rw [start']
        omega }
  obtain ⟨a₃, run', filled, laid'⟩ := each rfl next rest
    (n - node.wire.length - endField.wire.length) stack
  rw [start', place] at laid'
  refine ⟨a₃, ?_, ⟨?_, filled.stocked, filled.cell, ?_⟩, ⟨li, whole, ?_⟩, ?_, laid'⟩
  · rw [Instances.wire_cons, Instances.flat, List.length_append, List.length_cons, Nat.add_comm
      later.flat.length]
    rw [← List.append_assoc endField.wire] at run
    exact reaches_append run (reaches_append (.one round) run')
  · rw [filled.length, place, Instances.size]
    omega
  · intro j hj other
    rw [filled.others j (by omega) other, opened.others j (by omega) other (by omega),
      grown.others j (by omega) (by omega)]
  · rw [filled.others current (by omega) (by omega), opened.full, ← place,
      Instances.head_ids some_left]
  · refine Node.Laid.frame node laid fun j high below => ?_
    rw [filled.others j (by omega) (by omega),
      opened.others j (by omega) (by omega) (by omega)]

end Each

mutual

theorem Node.parsed (sound : GroupDefs.Sound gds) (defs : GroupDefs) (node : Node)
    (valid : node.Valid gds) : node.Parsed maxMessageSize defs gds := by
  match node with
  | .nil => exact Node.parsed_nil
  | .field f later =>
      have ⟨_, _, valid'⟩ := valid
      exact Node.parsed_field valid (Node.parsed sound defs later valid')
  | .block gd count instances later =>
      have ⟨hgd, _, some_left, valid', _, valid''⟩ := valid
      exact Node.parsed_block sound valid
        (Instances.parsed sound defs hgd instances valid' some_left)
        (Node.parsed sound defs later valid'')

theorem Instances.parsed (sound : GroupDefs.Sound gds) (defs : GroupDefs) {gd : GroupDef}
    (hgd : gd ∈ gds) (is : Instances) (valid : is.Valid gds gd) (some_left : is.count ≠ 0) :
    is.Parsed maxMessageSize defs gds gd := by
  match is with
  | .nil => exact absurd rfl some_left
  | .cons node endField later =>
      have ⟨valid', _, _, valid''⟩ := valid
      have parsed : node.Parsed maxMessageSize defs gds := Node.parsed sound defs node valid'
      by_cases none_left : later.count = 0
      · obtain rfl := Instances.eq_nil none_left
        exact Instances.parsed_last sound hgd valid parsed
      · exact Instances.parsed_more sound hgd valid none_left parsed
          (Instances.parsed sound defs hgd later valid'' none_left)

end

end FastLittleMarket.Fix
