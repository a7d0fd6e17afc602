import FastLittleMarket.Fix.Lookup

/-!
Messages with repeating groups as trees: a node is a sequence of fields and blocks, a
block a count field and instances, an instance a node and its end field. What a tree
is on the wire, and which fields and which maps it makes in the arena when its maps
are allocated from `lo` on and its first byte stands at `start`.
-/

namespace FastLittleMarket.Fix

mutual

inductive Node where
  | nil
  | field (f : RawField) (rest : Node)
  | block (gd : GroupDef) (count : RawField) (instances : Instances) (rest : Node)

inductive Instances where
  | nil
  | cons (node : Node) (endField : RawField) (rest : Instances)

end

def Field.heading (tag : FieldTag) (offset length first last : Nat) : Field :=
  { Field.plain tag offset length with groups := some first, tail := some last }

mutual

/-- All fields in their order on the wire. -/
def Node.flat : Node → List RawField
  | .nil => []
  | .field f rest => f :: rest.flat
  | .block _ count instances rest => count :: (instances.flat ++ rest.flat)

def Instances.flat : Instances → List RawField
  | .nil => []
  | .cons node endField rest => node.flat ++ endField :: rest.flat

end

def Instances.count : Instances → Nat
  | .nil => 0
  | .cons _ _ rest => rest.count + 1

mutual

def Node.size : Node → Nat
  | .nil => 0
  | .field _ rest => rest.size
  | .block _ _ instances rest => instances.size + rest.size

def Instances.size : Instances → Nat
  | .nil => 0
  | .cons node _ rest => node.size + 1 + rest.size

end

namespace Instances

def ids : Nat → Instances → List Nat
  | _, .nil => []
  | lo, .cons node _ rest => lo :: ids (lo + node.size + 1) rest

def last : Nat → Instances → Nat
  | lo, .nil => lo
  | lo, .cons _ _ .nil => lo
  | lo, .cons node _ rest => last (lo + node.size + 1) rest

def wire (is : Instances) : List UInt8 := wireAll is.flat

end Instances

namespace Node

def wire (node : Node) : List UInt8 := wireAll node.flat

/-- The fields of the node's own map, and where they start. -/
def ownSpots : Nat → Node → List (Nat × RawField)
  | _, .nil => []
  | start, .field f rest => (start, f) :: rest.ownSpots (start + f.wire.length)
  | start, .block _ count instances rest =>
      (start, count) :: rest.ownSpots (start + count.wire.length + instances.wire.length)

def own : Node → List RawField
  | .nil => []
  | .field f rest => f :: rest.own
  | .block _ count _ rest => count :: rest.own

def blockTags : Node → List FieldTag
  | .nil => []
  | .field _ rest => rest.blockTags
  | .block gd _ _ rest => gd.groupCountTag :: rest.blockTags

/-- What the node puts into its own map. -/
def entries : Nat → Nat → Node → List Field
  | _, _, .nil => []
  | lo, start, .field f rest =>
      Field.plain f.tag (f.token start).offset f.value.length ::
        rest.entries lo (start + f.wire.length)
  | lo, start, .block _ count instances rest =>
      Field.heading count.tag (count.token start).offset count.value.length lo
          (instances.last lo) ::
        rest.entries (lo + instances.size)
          (start + count.wire.length + instances.wire.length)

end Node

def endEntry (node : Node) (endField : RawField) (start : Nat) : Field :=
  Field.plain endField.tag (endField.token (start + node.wire.length)).offset
    endField.value.length

mutual

/-- The maps of the blocks of a node stand in `cells` from `lo` on. -/
def Node.Laid (cells : Nat → Option FieldMap) : Nat → Nat → Node → Prop
  | _, _, .nil => True
  | lo, start, .field f rest => rest.Laid cells lo (start + f.wire.length)
  | lo, start, .block _ count instances rest =>
      instances.Laid cells lo (start + count.wire.length) ∧
        rest.Laid cells (lo + instances.size)
          (start + count.wire.length + instances.wire.length)

/-- Each instance has its map, linked to the one of the next instance. -/
def Instances.Laid (cells : Nat → Option FieldMap) : Nat → Nat → Instances → Prop
  | _, _, .nil => True
  | lo, start, .cons node endField rest =>
      (∃ l, KeyedList.putAll Field.takeOverMerge KeyedList.empty
          (node.entries (lo + 1) start ++ [endEntry node endField start]) = some l ∧
        cells lo = some ⟨(rest.ids (lo + node.size + 1)).head?, l⟩) ∧
      node.Laid cells (lo + 1) start ∧
      rest.Laid cells (lo + node.size + 1)
        (start + node.wire.length + endField.wire.length)

end

section Shape

@[simp] theorem Node.wire_field (f : RawField) (rest : Node) :
    (Node.field f rest).wire = f.wire ++ rest.wire := rfl

theorem Node.wire_block (gd : GroupDef) (count : RawField) (instances : Instances) (rest : Node) :
    (Node.block gd count instances rest).wire =
      count.wire ++ (instances.wire ++ rest.wire) := by
  simp [Node.wire, Instances.wire, Node.flat, wireAll_append]

theorem Instances.wire_cons (node : Node) (endField : RawField) (rest : Instances) :
    (Instances.cons node endField rest).wire = node.wire ++ (endField.wire ++ rest.wire) := by
  simp [Node.wire, Instances.wire, Instances.flat, wireAll_append]

theorem Node.map_ownSpots (node : Node) (start : Nat) :
    (node.ownSpots start).map Prod.snd = node.own := by
  match node with
  | .nil => rfl
  | .field f rest => rw [Node.ownSpots, List.map_cons, rest.map_ownSpots, Node.own]
  | .block gd count instances rest =>
      rw [Node.ownSpots, List.map_cons, rest.map_ownSpots, Node.own]

theorem Node.map_tag_entries (node : Node) (lo start : Nat) :
    (node.entries lo start).map Field.tag = node.own.map RawField.tag := by
  match node with
  | .nil => rfl
  | .field f rest =>
      rw [Node.entries, List.map_cons, rest.map_tag_entries, Node.own, List.map_cons]
      rfl
  | .block gd count instances rest =>
      rw [Node.entries, List.map_cons, rest.map_tag_entries, Node.own, List.map_cons]
      rfl

theorem Instances.length_ids (is : Instances) (lo : Nat) : (is.ids lo).length = is.count := by
  match is with
  | .nil => rfl
  | .cons node _ rest =>
      rw [Instances.ids, List.length_cons, rest.length_ids, Instances.count]

theorem Instances.head_ids {is : Instances} (h : is.count ≠ 0) (lo : Nat) :
    (is.ids lo).head? = some lo := by
  cases is with
  | nil => exact absurd rfl h
  | cons node endField rest => rfl

theorem Instances.last_cons (node : Node) (endField : RawField) (rest : Instances) (lo : Nat) :
    (Instances.cons node endField rest).last lo =
      if rest.count = 0 then lo else rest.last (lo + node.size + 1) := by
  cases rest with
  | nil => rfl
  | cons node' endField' rest' =>
      have more : (Instances.cons node' endField' rest').count ≠ 0 := Nat.succ_ne_zero _
      rw [if_neg more]
      rfl

mutual

/-- What is laid out stays so while its maps stay. -/
theorem Node.Laid.frame {cells cells' : Nat → Option FieldMap} (node : Node) {lo start : Nat}
    (h : node.Laid cells lo start)
    (same : ∀ j, lo ≤ j → j < lo + node.size → cells' j = cells j) :
    node.Laid cells' lo start := by
  match node with
  | .nil => trivial
  | .field f rest => exact Node.Laid.frame rest h same
  | .block gd count instances rest =>
      obtain ⟨first, second⟩ := h
      simp only [Node.size] at same
      exact ⟨Instances.Laid.frame instances first fun j low high => same j low (by omega),
        Node.Laid.frame rest second fun j low high => same j (by omega) (by omega)⟩

theorem Instances.Laid.frame {cells cells' : Nat → Option FieldMap} (is : Instances)
    {lo start : Nat} (h : is.Laid cells lo start)
    (same : ∀ j, lo ≤ j → j < lo + is.size → cells' j = cells j) :
    is.Laid cells' lo start := by
  match is with
  | .nil => trivial
  | .cons node endField rest =>
      obtain ⟨⟨l, put, cell⟩, first, second⟩ := h
      simp only [Instances.size] at same
      refine ⟨⟨l, put, ?_⟩, ?_, ?_⟩
      · rw [same lo (by omega) (by omega)]
        exact cell
      · exact Node.Laid.frame node first fun j low high => same j (by omega) (by omega)
      · exact Instances.Laid.frame rest second fun j low high => same j (by omega) (by omega)

end

end Shape

end FastLittleMarket.Fix
