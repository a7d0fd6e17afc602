import Mathlib.Algebra.Group.Nat.Defs
import Mathlib.Data.Nat.Basic

/-!
The arena allocator. Addresses and sizes are 64-bit and wrap; a message's buffer is
one whose block lies so that no request the message makes wraps.
-/

namespace FastLittleMarket.Fix

structure Buffer where
  buffer : UInt64
  offset : UInt64
  bytesAllocated : UInt64
  capacity : UInt64
  deriving DecidableEq, Repr

namespace Buffer

/-- A buffer over the block that `malloc` placed at `block`. -/
def new (block capacity : UInt64) : Buffer := ⟨block, block, 0, capacity⟩

/-- The address handed out, or nothing where the code throws `bad_alloc`. -/
def allocate (b : Buffer) (n : UInt64) : Option (UInt64 × Buffer) :=
  if b.offset + n > b.buffer + b.capacity then none
  else
    some (b.offset, { b with offset := b.offset + n, bytesAllocated := b.bytesAllocated + n })

def deallocate (b : Buffer) (n : UInt64) : Buffer :=
  if n > b.bytesAllocated then b
  else { b with bytesAllocated := b.bytesAllocated - n, offset := b.offset - n }

def reset (b : Buffer) : Buffer := { b with offset := b.buffer, bytesAllocated := 0 }

def allocated (b : Buffer) : UInt64 := b.bytesAllocated

def remaining (b : Buffer) : UInt64 := b.capacity - b.bytesAllocated

/-- The offset runs ahead of the block by what is allocated, within the capacity,
and requests of up to `slack` bytes do not wrap. -/
structure Placed (slack : Nat) (b : Buffer) : Prop where
  room : b.buffer.toNat + b.capacity.toNat + slack < 2 ^ 64
  used : b.offset.toNat = b.buffer.toNat + b.bytesAllocated.toNat
  bounded : b.bytesAllocated.toNat ≤ b.capacity.toNat

variable {b : Buffer} {slack : Nat}

theorem Placed.new {block capacity : UInt64}
    (room : block.toNat + capacity.toNat + slack < 2 ^ 64) :
    (Buffer.new block capacity).Placed slack where
  room := room
  used := by simp [Buffer.new]
  bounded := by simp [Buffer.new]

theorem Placed.mono {slack' : Nat} (h : b.Placed slack) (le : slack' ≤ slack) :
    b.Placed slack' where
  room := Nat.lt_of_le_of_lt (Nat.add_le_add_left le _) h.room
  used := h.used
  bounded := h.bounded

theorem Placed.reset (h : b.Placed slack) : b.reset.Placed slack where
  room := h.room
  used := by simp [Buffer.reset]
  bounded := by simp [Buffer.reset]

/-- The guard is the only test. -/
theorem allocate_cases (b : Buffer) (n : UInt64) :
    (b.buffer + b.capacity < b.offset + n ∧ b.allocate n = none) ∨
      (b.offset + n ≤ b.buffer + b.capacity ∧ b.allocate n = some (b.offset,
        { b with offset := b.offset + n, bytesAllocated := b.bytesAllocated + n })) := by
  by_cases excess : b.offset + n > b.buffer + b.capacity
  · exact .inl ⟨excess, if_pos excess⟩
  · exact .inr ⟨UInt64.not_lt.mp excess, if_neg excess⟩

theorem of_allocate {n address : UInt64} {b' : Buffer}
    (granted : b.allocate n = some (address, b')) :
    b.offset + n ≤ b.buffer + b.capacity ∧ address = b.offset ∧ b' =
      { b with offset := b.offset + n, bytesAllocated := b.bytesAllocated + n } := by
  rcases b.allocate_cases n with ⟨-, refused⟩ | ⟨fits, made⟩
  · rw [refused] at granted
    cases granted
  · rw [made] at granted
    cases granted
    exact ⟨fits, rfl, rfl⟩

theorem Placed.toNat_limit (h : b.Placed slack) :
    (b.buffer + b.capacity).toNat = b.buffer.toNat + b.capacity.toNat := by
  have room := h.room
  rw [UInt64.toNat_add, Nat.mod_eq_of_lt]
  omega

theorem Placed.noWrap (h : b.Placed slack) {n : UInt64} (hn : n.toNat ≤ slack) :
    b.offset.toNat + n.toNat < 2 ^ 64 := by
  have room := h.room
  have used := h.used
  have bounded := h.bounded
  omega

theorem toNat_offset_add {n : UInt64} (noWrap : b.offset.toNat + n.toNat < 2 ^ 64) :
    (b.offset + n).toNat = b.offset.toNat + n.toNat := by
  rw [UInt64.toNat_add, Nat.mod_eq_of_lt noWrap]

/-- A granted request that does not wrap. -/
theorem Placed.granted (h : b.Placed slack) {n : UInt64}
    (noWrap : b.offset.toNat + n.toNat < 2 ^ 64) {address : UInt64} {b' : Buffer}
    (granted : b.allocate n = some (address, b')) :
    b'.Placed slack ∧ b'.buffer = b.buffer ∧ b'.capacity = b.capacity ∧
      b'.offset.toNat = b.offset.toNat + n.toNat ∧
      b'.bytesAllocated.toNat = b.bytesAllocated.toNat + n.toNat := by
  obtain ⟨fits, -, rfl⟩ := of_allocate granted
  have used := h.used
  have top := toNat_offset_add noWrap
  rw [UInt64.le_iff_toNat_le, top, h.toNat_limit] at fits
  have total : (b.bytesAllocated + n).toNat = b.bytesAllocated.toNat + n.toNat := by
    rw [UInt64.toNat_add, Nat.mod_eq_of_lt]
    omega
  refine ⟨⟨h.room, ?_, ?_⟩, rfl, rfl, top, total⟩
  · dsimp only
    omega
  · dsimp only
    omega

/-- A request is granted exactly when it fits what is left of the capacity. -/
theorem Placed.allocate_eq_none (h : b.Placed slack) {n : UInt64} (hn : n.toNat ≤ slack) :
    b.allocate n = none ↔ b.capacity.toNat < b.bytesAllocated.toNat + n.toNat := by
  have excess : b.buffer + b.capacity < b.offset + n ↔
      b.capacity.toNat < b.bytesAllocated.toNat + n.toNat := by
    rw [UInt64.lt_iff_toNat_lt, toNat_offset_add (h.noWrap hn), h.toNat_limit, h.used]
    omega
  rw [← excess]
  rcases b.allocate_cases n with ⟨above, refused⟩ | ⟨fits, made⟩
  · exact iff_of_true refused above
  · exact iff_of_false (by simp [made]) (UInt64.not_lt.mpr fits)

theorem Placed.allocate (h : b.Placed slack) {n : UInt64} (hn : n.toNat ≤ slack)
    {address : UInt64} {b' : Buffer} (granted : b.allocate n = some (address, b')) :
    b'.Placed slack ∧ b'.capacity = b.capacity ∧
      b'.bytesAllocated.toNat = b.bytesAllocated.toNat + n.toNat := by
  obtain ⟨placed, -, capacity, -, total⟩ := h.granted (h.noWrap hn) granted
  exact ⟨placed, capacity, total⟩

/-- A request of no more than is allocated is taken back from the offset. -/
theorem Placed.deallocate (h : b.Placed slack) {n : UInt64}
    (held : n.toNat ≤ b.bytesAllocated.toNat) :
    (b.deallocate n).Placed slack ∧ (b.deallocate n).buffer = b.buffer ∧
      (b.deallocate n).capacity = b.capacity ∧
        (b.deallocate n).offset.toNat + n.toNat = b.offset.toNat := by
  have used := h.used
  have bounded := h.bounded
  have top : (b.offset - n).toNat = b.offset.toNat - n.toNat :=
    UInt64.toNat_sub_of_le _ _ (UInt64.le_iff_toNat_le.mpr (by omega))
  have total : (b.bytesAllocated - n).toNat = b.bytesAllocated.toNat - n.toNat :=
    UInt64.toNat_sub_of_le _ _ (UInt64.le_iff_toNat_le.mpr held)
  have made : b.deallocate n =
      { b with bytesAllocated := b.bytesAllocated - n, offset := b.offset - n } :=
    if_neg (UInt64.not_lt.mpr (UInt64.le_iff_toNat_le.mpr held))
  rw [made]
  refine ⟨⟨h.room, ?_, ?_⟩, rfl, rfl, ?_⟩ <;> dsimp only <;> omega

end Buffer

/-- The allocator of a type, over a buffer that it shares with others. -/
structure Allocator where
  sizeofT : UInt64
  deriving DecidableEq, Repr

namespace Allocator

def allocate (a : Allocator) (b : Buffer) (n : UInt64) : Option (UInt64 × Buffer) :=
  b.allocate (n * a.sizeofT)

def deallocate (a : Allocator) (b : Buffer) (n : UInt64) : Buffer :=
  b.deallocate (n * a.sizeofT)

end Allocator

def sizeofFieldMap : Nat := 1568

theorem sizeofFieldMap_le : sizeofFieldMap ≤ 2 ^ 31 := by
  unfold sizeofFieldMap
  omega

/-- What the constructor of a message asks of its size: the arena of four times
that many bytes is an `int`, and holds one field map and the message. -/
structure Admits (maxMessageSize : Nat) : Prop where
  int : 4 * maxMessageSize < 2 ^ 31
  room : sizeofFieldMap + maxMessageSize ≤ 4 * maxMessageSize

/-- The message itself is a request that does not wrap. -/
theorem Admits.request {maxMessageSize : Nat} (h : Admits maxMessageSize) :
    maxMessageSize ≤ 2 ^ 31 := by
  have int := h.int
  omega

/-- The buffer of a message of the given size. -/
structure MessageBuffer (maxMessageSize : Nat) where
  buf : Buffer
  admits : Admits maxMessageSize
  placed : buf.Placed (2 ^ 31)
  capacity_eq : buf.capacity.toNat = 4 * maxMessageSize

namespace MessageBuffer

variable {maxMessageSize : Nat}

/-- A buffer over a block of the address space that leaves 2^32 addresses above it. -/
def new (admits : Admits maxMessageSize) (block : UInt64) (low : block.toNat + 2 ^ 32 < 2 ^ 64) :
    MessageBuffer maxMessageSize :=
  have size : (UInt64.ofNat (4 * maxMessageSize)).toNat = 4 * maxMessageSize :=
    UInt64.toNat_ofNat_of_lt' (Nat.lt_trans admits.int (by decide))
  { buf := Buffer.new block (UInt64.ofNat (4 * maxMessageSize))
    admits := admits
    placed := .new (by have := admits.int; rw [size]; omega)
    capacity_eq := size }

def used (b : MessageBuffer maxMessageSize) : Nat := b.buf.bytesAllocated.toNat

def reset (b : MessageBuffer maxMessageSize) : MessageBuffer maxMessageSize where
  buf := b.buf.reset
  admits := b.admits
  placed := b.placed.reset
  capacity_eq := b.capacity_eq

theorem toNat_request {n : Nat} (h : n ≤ 2 ^ 31) : (UInt64.ofNat n).toNat = n :=
  UInt64.toNat_ofNat_of_lt' (Nat.lt_of_le_of_lt h (by decide))

theorem toNat_request_le {n : Nat} (h : n ≤ 2 ^ 31) : (UInt64.ofNat n).toNat ≤ 2 ^ 31 := by
  rwa [toNat_request h]

/-- Requests of the message are at most its arena's size. -/
def allocate (b : MessageBuffer maxMessageSize) (n : Nat) (h : n ≤ 2 ^ 31) :
    Option (MessageBuffer maxMessageSize) :=
  match granted : b.buf.allocate (UInt64.ofNat n) with
  | none => none
  | some (_, buf) =>
      have spec := b.placed.allocate (toNat_request_le h) granted
      some ⟨buf, b.admits, spec.1, by rw [spec.2.1]; exact b.capacity_eq⟩

theorem used_reset (b : MessageBuffer maxMessageSize) : b.reset.used = 0 := by
  simp [reset, used, Buffer.reset]

theorem allocate_eq_none {b : MessageBuffer maxMessageSize} {n : Nat} (h : n ≤ 2 ^ 31) :
    b.allocate n h = none ↔ 4 * maxMessageSize < b.used + n := by
  have raw := b.placed.allocate_eq_none (toNat_request_le h)
  rw [toNat_request h, b.capacity_eq] at raw
  rw [used, ← raw, allocate]
  split <;> simp_all

theorem used_allocate {b b' : MessageBuffer maxMessageSize} {n : Nat} (h : n ≤ 2 ^ 31)
    (granted : b.allocate n h = some b') : b'.used = b.used + n := by
  unfold allocate at granted
  split at granted
  · cases granted
  · rename_i address buf raw
    obtain ⟨-, -, total⟩ := b.placed.allocate (toNat_request_le h) raw
    obtain rfl := Option.some.inj granted
    rw [toNat_request h] at total
    exact total

/-- A request that fits is granted. -/
theorem exists_allocate {b : MessageBuffer maxMessageSize} {n : Nat} (h : n ≤ 2 ^ 31)
    (fits : b.used + n ≤ 4 * maxMessageSize) :
    ∃ b', b.allocate n h = some b' ∧ b'.used = b.used + n := by
  cases granted : b.allocate n h with
  | none =>
      have excess := (allocate_eq_none h).mp granted
      omega
  | some b' => exact ⟨b', rfl, used_allocate h granted⟩

end MessageBuffer

end FastLittleMarket.Fix
