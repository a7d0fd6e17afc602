import FastLittleMarket.Fix.Alloc
import FastLittleMarket.Library.Extent
import FastLittleMarket.Library.Run
import Mathlib.Algebra.Order.Group.Nat

/-!
Runs of a buffer and its allocators in which the last live block is freed first, for
requests of any size. The blocks of a run are stacked from the start of the buffer up to
its offset as long as no granted request wraps.
-/

namespace FastLittleMarket.Fix

inductive AllocRequest where
  | buffer (n : UInt64)
  | allocator (a : Allocator) (n : UInt64)
  deriving DecidableEq, Repr

namespace AllocRequest

/-- The bytes the caller asks for: a product of two sizes need not be a size. -/
def bytes : AllocRequest → Nat
  | buffer n => n.toNat
  | allocator a n => n.toNat * a.sizeofT.toNat

def allocate (b : Buffer) : AllocRequest → Option (UInt64 × Buffer)
  | buffer n => b.allocate n
  | allocator a n => a.allocate b n

def deallocate (b : Buffer) : AllocRequest → Buffer
  | buffer n => b.deallocate n
  | allocator a n => a.deallocate b n

/-- The bytes the buffer is asked for. -/
def size : AllocRequest → UInt64
  | buffer n => n
  | allocator a n => n * a.sizeofT

variable (r : AllocRequest) (b : Buffer)

theorem allocate_eq : r.allocate b = b.allocate r.size := by
  cases r <;> rfl

theorem deallocate_eq : r.deallocate b = b.deallocate r.size := by
  cases r <;> rfl

theorem toNat_size : r.size.toNat = r.bytes % 2 ^ 64 := by
  cases r with
  | buffer n => exact (Nat.mod_eq_of_lt n.toNat_lt).symm
  | allocator a n => exact UInt64.toNat_mul n a.sizeofT

/-- The block ends at an address, or the guard refuses what the request wraps to. -/
def NoWrap : Prop :=
  b.offset.toNat + r.bytes < 2 ^ 64 ∨
    (b.offset.toNat + r.size.toNat < 2 ^ 64 ∧
      (b.buffer + b.capacity).toNat < b.offset.toNat + r.size.toNat)

instance : Decidable (r.NoWrap b) := inferInstanceAs (Decidable (_ ∨ _))

end AllocRequest

/-- A buffer and the blocks of it that are live, the last one first. -/
structure Ledger where
  buf : Buffer
  live : List (Extent Nat)
  deriving DecidableEq, Repr

inductive ArenaCall where
  | allocate (r : AllocRequest)
  | deallocate (r : AllocRequest)
  | reset
  deriving DecidableEq, Repr

namespace Ledger

def new (block capacity : UInt64) : Ledger := ⟨Buffer.new block capacity, []⟩

/-- Nothing but the last live block is freed, by a call that gives its size. -/
def step (l : Ledger) : ArenaCall → Option Ledger
  | .allocate r =>
      match r.allocate l.buf with
      | none => some l
      | some (address, buf) => some ⟨buf, ⟨address.toNat, r.bytes⟩ :: l.live⟩
  | .deallocate r =>
      match l.live with
      | [] => none
      | e :: live => if e.size = r.bytes then some ⟨r.deallocate l.buf, live⟩ else none
  | .reset => some ⟨l.buf.reset, []⟩

def Steps (l : Ledger) (call : ArenaCall) (l' : Ledger) : Prop := l.step call = some l'

/-- The account the buffer gives of itself. -/
structure Sound (block capacity : UInt64) (l : Ledger) : Prop where
  allocated_eq : l.buf.allocated = l.buf.offset - block
  allocated_le : l.buf.allocated ≤ capacity
  total : l.buf.allocated.toNat + l.buf.remaining.toNat = capacity.toNat

/-- The block at the address has the bytes asked for, and is within the buffer and apart
from the live blocks. -/
structure Grants (block capacity : UInt64) (l : Ledger) (r : AllocRequest) (address : UInt64)
    (buf : Buffer) : Prop where
  exact : address.toNat + r.bytes = buf.offset.toNat
  lower : block.toNat ≤ address.toNat
  upper : address.toNat + r.bytes ≤ block.toNat + capacity.toNat
  apart : ∀ e ∈ l.live, Disjoint (Extent.cells ⟨address.toNat, r.bytes⟩) e.cells

/-- The call throws and changes nothing, or grants what was asked for. -/
def Serves (block capacity : UInt64) (l : Ledger) (r : AllocRequest) (l' : Ledger) : Prop :=
  (r.allocate l.buf = none ∧ l' = l) ∨
    ∃ address buf, r.allocate l.buf = some (address, buf) ∧ l.Grants block capacity r address buf

/-- A step from a sound account, which serves the request if there is one. -/
structure Honours (block capacity : UInt64) (t : Taken Ledger ArenaCall) : Prop where
  sound : t.before.Sound block capacity
  serves : ∀ r, t.label = .allocate r → t.before.Serves block capacity r t.after

variable {block capacity : UInt64} {l l' : Ledger} {r : AllocRequest}

theorem steps_allocate (taken : l.Steps (.allocate r) l') :
    (r.allocate l.buf = none ∧ l' = l) ∨
      ∃ address buf, r.allocate l.buf = some (address, buf) ∧
        l' = ⟨buf, ⟨address.toNat, r.bytes⟩ :: l.live⟩ := by
  unfold Steps step at taken
  cases made : r.allocate l.buf with
  | none =>
      simp only [made] at taken
      exact .inl ⟨rfl, (Option.some.inj taken).symm⟩
  | some block =>
      simp only [made] at taken
      exact .inr ⟨block.1, block.2, rfl, (Option.some.inj taken).symm⟩

theorem steps_deallocate (taken : l.Steps (.deallocate r) l') :
    ∃ e live, l.live = e :: live ∧ e.size = r.bytes ∧ l' = ⟨r.deallocate l.buf, live⟩ := by
  unfold Steps step at taken
  cases found : l.live with
  | nil => simp [found] at taken
  | cons e live =>
      simp only [found, Option.ite_none_right_eq_some] at taken
      exact ⟨e, live, rfl, taken.1, (Option.some.inj taken.2).symm⟩

/-- The live blocks are stacked on the start of the buffer. -/
structure Kept (block capacity : UInt64) (l : Ledger) : Prop where
  buffer_eq : l.buf.buffer = block
  capacity_eq : l.buf.capacity = capacity
  placed : l.buf.Placed 0
  stacked : Extent.Stacked block.toNat l.live l.buf.offset.toNat

theorem kept_new (malloc : block.toNat + capacity.toNat < 2 ^ 64) :
    (new block capacity).Kept block capacity where
  buffer_eq := rfl
  capacity_eq := rfl
  placed := .new malloc
  stacked := .nil

theorem Kept.reset (h : l.Kept block capacity) : Kept block capacity ⟨l.buf.reset, []⟩ where
  buffer_eq := h.buffer_eq
  capacity_eq := h.capacity_eq
  placed := h.placed.reset
  stacked := by
    rw [← h.buffer_eq]
    exact .nil

theorem Kept.sound (h : l.Kept block capacity) : l.Sound block capacity := by
  obtain ⟨rfl, rfl, placed, -⟩ := h
  have used := placed.used
  have bounded := placed.bounded
  have above : (l.buf.offset - l.buf.buffer).toNat = l.buf.bytesAllocated.toNat := by
    rw [UInt64.toNat_sub_of_le _ _ (UInt64.le_iff_toNat_le.mpr (by omega))]
    omega
  have left : (l.buf.capacity - l.buf.bytesAllocated).toNat =
      l.buf.capacity.toNat - l.buf.bytesAllocated.toNat :=
    UInt64.toNat_sub_of_le _ _ (UInt64.le_iff_toNat_le.mpr bounded)
  refine ⟨UInt64.toNat_inj.mp above.symm, UInt64.le_iff_toNat_le.mpr bounded, ?_⟩
  rw [Buffer.allocated, Buffer.remaining, left]
  omega

/-- A granted request that meets the condition does not wrap. -/
theorem toNat_size_of_noWrap (noWrap : r.NoWrap l.buf)
    {address : UInt64} {buf : Buffer} (made : r.allocate l.buf = some (address, buf)) :
    r.size.toNat = r.bytes ∧ l.buf.offset.toNat + r.size.toNat < 2 ^ 64 := by
  rcases noWrap with address | ⟨noWrap, above⟩
  · have size := r.toNat_size
    rw [Nat.mod_eq_of_lt (by omega)] at size
    rw [size]
    exact ⟨rfl, address⟩
  · have refused : r.allocate l.buf = none := by
      rw [r.allocate_eq]
      refine if_pos (UInt64.lt_iff_toNat_lt.mpr ?_)
      rwa [Buffer.toNat_offset_add noWrap]
    rw [refused] at made
    cases made

theorem Kept.allocate (h : l.Kept block capacity) (noWrap : r.NoWrap l.buf)
    {address : UInt64} {buf : Buffer} (made : r.allocate l.buf = some (address, buf)) :
    Kept block capacity ⟨buf, ⟨address.toNat, r.bytes⟩ :: l.live⟩ := by
  obtain ⟨size, inside⟩ := toNat_size_of_noWrap noWrap made
  rw [r.allocate_eq] at made
  obtain ⟨placed, buffer, limit, top, -⟩ := h.placed.granted inside made
  obtain ⟨-, rfl, -⟩ := Buffer.of_allocate made
  refine ⟨buffer.trans h.buffer_eq, limit.trans h.capacity_eq, placed, ?_⟩
  dsimp only
  rw [top, size]
  exact h.stacked.push r.bytes

theorem Kept.offset_le (h : l.Kept block capacity) :
    l.buf.offset.toNat ≤ block.toNat + capacity.toNat := by
  rw [h.placed.used, ← h.buffer_eq, ← h.capacity_eq]
  exact Nat.add_le_add_left h.placed.bounded _

theorem Kept.grants (h : l.Kept block capacity) (noWrap : r.NoWrap l.buf)
    {address : UInt64} {buf : Buffer} (made : r.allocate l.buf = some (address, buf)) :
    l.Grants block capacity r address buf := by
  have after := h.allocate noWrap made
  obtain ⟨size, inside⟩ := toNat_size_of_noWrap noWrap made
  rw [r.allocate_eq] at made
  obtain ⟨-, -, -, top, -⟩ := h.placed.granted inside made
  obtain ⟨-, rfl, -⟩ := Buffer.of_allocate made
  rw [size] at top
  exact
    { exact := top.symm
      lower := h.stacked.base_le
      upper := top.symm.trans_le after.offset_le
      apart := fun e he => h.stacked.disjoint r.bytes he }

theorem Kept.deallocate (h : l.Kept block capacity) {e : Extent Nat} {live : List (Extent Nat)}
    (found : l.live = e :: live) (size : e.size = r.bytes) :
    Kept block capacity ⟨r.deallocate l.buf, live⟩ := by
  have stacked := h.stacked
  rw [found] at stacked
  obtain ⟨top, below⟩ := stacked.pop
  have used := h.placed.used
  have buffer := congrArg UInt64.toNat h.buffer_eq
  have base := below.base_le
  have limit := l.buf.offset.toNat_lt
  rw [Extent.stop, size] at top
  have exact : r.size.toNat = r.bytes := by
    rw [r.toNat_size, Nat.mod_eq_of_lt]
    omega
  have held : r.size.toNat ≤ l.buf.bytesAllocated.toNat := by omega
  obtain ⟨placed, unmoved, limit', freed⟩ := h.placed.deallocate held
  have start : (l.buf.deallocate r.size).offset.toNat = e.start := by omega
  rw [r.deallocate_eq]
  refine ⟨unmoved.trans h.buffer_eq, limit'.trans h.capacity_eq, placed, ?_⟩
  rwa [start]

theorem Kept.step (h : l.Kept block capacity) {call : ArenaCall} (taken : l.Steps call l')
    (noWrap : ∀ r, call = .allocate r → r.NoWrap l.buf) : l'.Kept block capacity := by
  cases call with
  | allocate r =>
      rcases steps_allocate taken with ⟨-, rfl⟩ | ⟨address, buf, made, rfl⟩
      · exact h
      · exact h.allocate (noWrap r rfl) made
  | deallocate r =>
      obtain ⟨e, live, found, size, rfl⟩ := steps_deallocate taken
      exact h.deallocate found size
  | reset =>
      cases taken
      exact h.reset

/-- A sum that wraps lies below the offset, and the guard lets it pass. -/
theorem Kept.noWrap_of_refused (h : l.Kept block capacity) (refused : r.allocate l.buf = none) :
    r.NoWrap l.buf := by
  have limit := h.placed.toNat_limit
  have below := h.offset_le
  have size := r.size.toNat_lt
  rw [← h.buffer_eq, ← h.capacity_eq, ← limit] at below
  rw [r.allocate_eq] at refused
  rcases l.buf.allocate_cases r.size with ⟨above, -⟩ | ⟨-, made⟩
  · rw [UInt64.lt_iff_toNat_lt, UInt64.toNat_add l.buf.offset] at above
    right
    omega
  · rw [refused] at made
    cases made

theorem Kept.serves_iff (h : l.Kept block capacity) (taken : l.Steps (.allocate r) l') :
    l.Serves block capacity r l' ↔ r.NoWrap l.buf := by
  constructor
  · rintro (⟨refused, -⟩ | ⟨address, buf, made, grants⟩)
    · exact h.noWrap_of_refused refused
    · have upper := grants.upper
      have room := h.placed.room
      rw [h.buffer_eq, h.capacity_eq] at room
      rw [r.allocate_eq] at made
      obtain ⟨-, rfl, -⟩ := Buffer.of_allocate made
      left
      omega
  · intro noWrap
    rcases steps_allocate taken with ⟨refused, same⟩ | ⟨address, buf, made, -⟩
    · exact .inl ⟨refused, same⟩
    · exact .inr ⟨address, buf, made, h.grants noWrap made⟩

theorem Kept.step_honours_iff (h : l.Kept block capacity) {call : ArenaCall}
    (taken : l.Steps call l') :
    Honours block capacity ⟨l, call, l'⟩ ↔ ∀ r, call = .allocate r → r.NoWrap l.buf := by
  constructor
  · rintro ⟨-, serves⟩ r rfl
    exact (h.serves_iff taken).mp (serves r rfl)
  · intro noWrap
    refine ⟨h.sound, ?_⟩
    rintro r rfl
    exact (h.serves_iff taken).mpr (noWrap r rfl)

theorem kept_of_run (malloc : block.toNat + capacity.toNat < 2 ^ 64)
    {ts : List (Taken Ledger ArenaCall)} (run : Run Steps (new block capacity) ts l)
    (noWrap : ∀ t ∈ ts, ∀ r, t.label = .allocate r → r.NoWrap t.before.buf) :
    l.Kept block capacity :=
  run.invariant_of (I := fun _ l => l.Kept block capacity) (kept_new malloc)
    (fun _ _ _ _ _ kept taken met => kept.step taken met) noWrap

/-- For every capacity and every run over a block that `malloc` returned, which ends at an
address: the account is sound in every state and every request is served just when every
request meets the condition. -/
theorem honours_iff (malloc : block.toNat + capacity.toNat < 2 ^ 64)
    {ts : List (Taken Ledger ArenaCall)} (run : Run Steps (new block capacity) ts l) :
    ((∀ t ∈ ts, Honours block capacity t) ∧ l.Sound block capacity) ↔
      ∀ t ∈ ts, ∀ r, t.label = .allocate r → r.NoWrap t.before.buf := by
  have steps := run.forall_taken_iff (P := Honours block capacity)
    (G := fun t => ∀ r, t.label = .allocate r → r.NoWrap t.before.buf) (kept_new malloc)
    (fun _ _ _ kept taken => kept.step taken) (fun _ _ _ kept taken => kept.step_honours_iff taken)
  constructor
  · rintro ⟨honours, -⟩
    exact steps.mp honours
  · intro noWrap
    exact ⟨steps.mpr noWrap, (kept_of_run malloc run noWrap).sound⟩

/-- Blocks of both kinds, a refusal, and the last block freed and granted anew. -/
theorem honours_iff_mixed :
    ∃ ts l, Run Steps (new 4096 64) ts l ∧
      ts.map Taken.label =
        [.allocate (.buffer 16), .allocate (.allocator ⟨8⟩ 4), .allocate (.buffer 17),
          .deallocate (.allocator ⟨8⟩ 4), .allocate (.buffer 48)] ∧
      l.live = [⟨4112, 48⟩, ⟨4096, 16⟩] ∧ (∀ t ∈ ts, Honours 4096 64 t) ∧ l.Sound 4096 64 := by
  have fresh : Run Steps (new 4096 64) [] (new 4096 64) := .start
  have first := fresh.snoc (l := ArenaCall.allocate (.buffer 16)) rfl
  have second := first.snoc (l := ArenaCall.allocate (.allocator ⟨8⟩ 4)) rfl
  have refused := second.snoc (l := ArenaCall.allocate (.buffer 17)) rfl
  have freed := refused.snoc (l := ArenaCall.deallocate (.allocator ⟨8⟩ 4)) rfl
  have run := freed.snoc (l := ArenaCall.allocate (.buffer 48)) rfl
  refine ⟨_, _, run, rfl, rfl, (honours_iff (by decide) run).mpr ?_⟩
  simp only [List.nil_append, List.cons_append, List.forall_mem_cons, ArenaCall.allocate.injEq,
    forall_eq', reduceCtorEq, false_imp_iff, implies_true, List.not_mem_nil, true_and, and_true]
  decide

/-- Behind a request that wraps, the third block is the first one again; a product that
wraps sets no byte aside. -/
theorem wrapped_requests_overlap :
    (∃ ts l, Run Steps (new 4096 64) ts l ∧
      ts.map Taken.label =
        [.allocate (.buffer 16), .allocate (.buffer 18446744073709551600),
          .allocate (.buffer 16)] ∧
      l.live = [⟨4096, 16⟩, ⟨4112, 18446744073709551600⟩, ⟨4096, 16⟩] ∧
      ¬ ((∀ t ∈ ts, Honours 4096 64 t) ∧ l.Sound 4096 64)) ∧
    ∃ ts l, Run Steps (new 4096 64) ts l ∧
      ts.map Taken.label = [.allocate (.allocator ⟨8⟩ 2305843009213693952)] ∧
      l = ⟨Buffer.new 4096 64, [⟨4096, 2 ^ 64⟩]⟩ ∧
      ¬ ((∀ t ∈ ts, Honours 4096 64 t) ∧ l.Sound 4096 64) := by
  have fresh : Run Steps (new 4096 64) [] (new 4096 64) := .start
  constructor
  · have first := fresh.snoc (l := ArenaCall.allocate (.buffer 16)) rfl
    have back := first.snoc (l := ArenaCall.allocate (.buffer 18446744073709551600)) rfl
    have again := back.snoc (l := ArenaCall.allocate (.buffer 16)) rfl
    refine ⟨_, _, again, rfl, rfl, ?_⟩
    rintro ⟨honours, -⟩
    have served := (honours _ (List.mem_append_right _ (List.mem_singleton_self _))).serves _ rfl
    rcases served with ⟨refused, -⟩ | ⟨address, buf, made, grants⟩
    · exact absurd refused (by decide)
    · obtain ⟨-, rfl, -⟩ := Buffer.of_allocate made
      have apart := grants.apart ⟨4096, 16⟩ (by decide)
      have shared : 4096 ∈ Extent.cells (⟨4096, 16⟩ : Extent Nat) := ⟨by decide, by decide⟩
      exact Set.disjoint_left.mp apart shared shared
  · have nothing := fresh.snoc (l := ArenaCall.allocate (.allocator ⟨8⟩ 2305843009213693952)) rfl
    refine ⟨_, _, nothing, rfl, rfl, ?_⟩
    rintro ⟨honours, -⟩
    have served := (honours _ (List.mem_append_right _ (List.mem_singleton_self _))).serves _ rfl
    rcases served with ⟨refused, -⟩ | ⟨address, buf, made, grants⟩
    · exact absurd refused (by decide)
    · have upper := grants.upper
      exact absurd (Nat.le_trans (Nat.le_add_left _ _) upper) (by decide)

end Ledger

end FastLittleMarket.Fix
