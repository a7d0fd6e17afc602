import Mathlib.Algebra.Group.Nat.Defs
import Mathlib.Data.Vector.Basic
import FastLittleMarket.Library.OrderedBag

/-!
Orders, packed ids and the sequencer that stamps them.

The constructor leaves the two flag bit-fields unset; the values they happen to
hold are a parameter of it. A string view is the memory its data pointer reaches
together with a size, because the constructor copies through the pointer alone.
-/

namespace FastLittleMarket

theorem toNat_pos {v : UInt32} (h : v ≠ 0) : 0 < v.toNat := by
  rw [Nat.pos_iff_ne_zero, ne_eq, ← UInt32.toNat_zero, UInt32.toNat_inj]
  exact h

/-- The one-bit side of an order: `BUY_SIDE` is 1, `SELL_SIDE` is 0. -/
inductive Side where
  | sell
  | buy
  deriving DecidableEq, Repr

namespace Side

def opposite : Side → Side
  | .buy => .sell
  | .sell => .buy

@[simp] theorem opposite_opposite (s : Side) : s.opposite.opposite = s := by
  cases s <;> rfl

theorem eq_or_opposite (s t : Side) : s = t ∨ s = t.opposite := by
  cases s <;> cases t <;> simp [opposite]

theorem opposite_ne (s : Side) : s.opposite ≠ s := by
  cases s <;> decide

end Side

structure GlobalSequencer where
  epochNs : UInt64
  seqCounter : UInt64
  deriving DecidableEq, Repr

def GlobalSequencer.nextTimestampNs (g : GlobalSequencer) : UInt64 × GlobalSequencer :=
  (g.epochNs + g.seqCounter, { g with seqCounter := g.seqCounter + 1 })

structure IdTimestamp where
  id : UInt32
  timestampNs : UInt32
  deriving DecidableEq, Repr

/-- A view: the bytes from its data pointer on, and its size. -/
structure StringView where
  data : Nat → UInt8
  size : Nat

/-- What the constructor finds in the bit-fields it does not write. -/
structure UnsetFlags where
  type : BitVec 2
  tim : BitVec 2
  deriving DecidableEq, Repr

structure Order where
  idNs : UInt64
  priceQ4 : UInt32
  volume : UInt32
  side : Side
  type : BitVec 2
  tim : BitVec 2
  client : Vector UInt8 8
  deriving DecidableEq, Repr

namespace Order

def pack (id tsNs : UInt32) : UInt64 := (id.toUInt64 <<< 32) ||| tsNs.toUInt64

def unpack (idNs : UInt64) : IdTimestamp where
  id := (idNs >>> 32).toUInt32
  timestampNs := (idNs &&& 0xFFFFFFFF).toUInt32

/-- `strncpy` of seven bytes into a zero-terminated array of eight. -/
def copyClient (client : StringView) : Vector UInt8 8 :=
  Vector.ofFn fun i =>
    if i.val < 7 ∧ (List.range (i.val + 1)).all (fun j => client.data j != 0) then
      client.data i.val
    else 0

/-- The view of a character array: its bytes up to the first zero. -/
def clientView (client : Vector UInt8 8) : StringView where
  data i := client.toList.getD i 0
  size := (client.toList.takeWhile (· != 0)).length

def new (id : Int32) (priceQ4 vol : UInt32) (isBuy : Bool) (client : StringView)
    (sequencer : GlobalSequencer) (unset : UnsetFlags) : Order × GlobalSequencer :=
  let (timestampNs, sequencer) := sequencer.nextTimestampNs
  ({ idNs := pack id.toUInt32 timestampNs.toUInt32
     priceQ4 := priceQ4
     volume := vol
     side := if isBuy then .buy else .sell
     type := unset.type
     tim := unset.tim
     client := copyClient client }, sequencer)

theorem toNat_pack (id ts : UInt32) :
    (pack id ts).toNat = id.toNat * 4294967296 + ts.toNat := by
  have hid := id.toNat_lt
  have hts := ts.toNat_lt
  simp only [pack, UInt64.toNat_or, UInt64.toNat_shiftLeft, UInt32.toNat_toUInt64]
  have small : id.toNat <<< (UInt64.toNat 32 % 64) % 2 ^ 64 = id.toNat <<< 32 := by
    change id.toNat <<< 32 % 2 ^ 64 = _
    rw [Nat.shiftLeft_eq]
    omega
  rw [small, ← Nat.shiftLeft_add_eq_or_of_lt hts, Nat.shiftLeft_eq]

theorem toNat_unpack_id (idNs : UInt64) :
    (unpack idNs).id.toNat = idNs.toNat / 4294967296 := by
  have h := idNs.toNat_lt
  simp only [unpack, UInt64.toNat_toUInt32, UInt64.toNat_shiftRight]
  change idNs.toNat >>> 32 % 2 ^ 32 = _
  rw [Nat.shiftRight_eq_div_pow]
  omega

theorem toNat_unpack_timestamp (idNs : UInt64) :
    (unpack idNs).timestampNs.toNat = idNs.toNat % 4294967296 := by
  simp only [unpack, UInt64.toNat_toUInt32, UInt64.toNat_and]
  change (idNs.toNat &&& (2 ^ 32 - 1)) % 2 ^ 32 = _
  rw [Nat.and_two_pow_sub_one_eq_mod]
  omega

theorem unpack_pack (id ts : UInt32) : unpack (pack id ts) = ⟨id, ts⟩ := by
  have hts := ts.toNat_lt
  have hid : (unpack (pack id ts)).id = id := by
    rw [← UInt32.toNat_inj, toNat_unpack_id, toNat_pack]
    omega
  have hstamp : (unpack (pack id ts)).timestampNs = ts := by
    rw [← UInt32.toNat_inj, toNat_unpack_timestamp, toNat_pack]
    omega
  cases h : unpack (pack id ts)
  simp_all

theorem pack_unpack (idNs : UInt64) :
    pack (unpack idNs).id (unpack idNs).timestampNs = idNs := by
  rw [← UInt64.toNat_inj, toNat_pack, toNat_unpack_id, toNat_unpack_timestamp]
  omega

theorem copyClient_get (view : StringView) {i : Nat} (hi : i < 8) :
    (copyClient view)[i] =
      if i < 7 ∧ ∀ j ≤ i, view.data j ≠ 0 then view.data i else 0 := by
  simp [copyClient, Nat.lt_succ_iff]

theorem clientView_data (client : Vector UInt8 8) {i : Nat} (hi : i < 8) :
    (clientView client).data i = client[i] := by
  simp [clientView, hi]

/-- Copying the text of a client array gives the array back exactly when the
constructor could have written it. -/
theorem copyClient_clientView {client : Vector UInt8 8} :
    copyClient (clientView client) = client ↔ ∃ view, client = copyClient view := by
  constructor
  · intro same
    exact ⟨_, same.symm⟩
  · rintro ⟨view, rfl⟩
    apply Vector.ext
    intro i hi
    rw [copyClient_get _ hi, clientView_data _ hi]
    by_cases written : i < 7 ∧ ∀ j ≤ i, view.data j ≠ 0
    · have again : ∀ j ≤ i, (clientView (copyClient view)).data j ≠ 0 := by
        intro j hj
        have hj8 : j < 8 := by omega
        rw [clientView_data _ hj8, copyClient_get _ hj8,
          if_pos ⟨by omega, fun k hk => written.2 k (Nat.le_trans hk hj)⟩]
        exact written.2 j hj
      rw [if_pos ⟨written.1, again⟩]
    · rw [copyClient_get _ hi, if_neg written, ite_self]

theorem copyClient_clientView_zero (client : Vector UInt8 8) :
    (copyClient (clientView client))[0] = client[0] := by
  rw [copyClient_get _ (by decide), clientView_data _ (by decide)]
  by_cases h : client[0] = 0 <;> simp [clientView_data, h]

def isValid (o : Order) : Bool :=
  if o.volume = 0 then false
  else if o.priceQ4 = 0 then false
  else if o.client[0] = 0 then false
  else true

def timestamp (o : Order) : UInt32 := (unpack o.idNs).timestampNs

theorem isValid_iff {o : Order} :
    o.isValid = true ↔ o.volume ≠ 0 ∧ o.priceQ4 ≠ 0 ∧ o.client[0] ≠ 0 := by
  unfold isValid
  split_ifs <;> simp_all

/-- Everything `isValid` asks for except a positive volume. -/
def Priced (o : Order) : Prop := o.priceQ4 ≠ 0 ∧ o.client[0] ≠ 0

theorem isValid_iff_priced {o : Order} : o.isValid = true ↔ o.volume ≠ 0 ∧ o.Priced :=
  isValid_iff

theorem Priced.isValid_withVolume {o : Order} (h : o.Priced) (v : UInt32) :
    ({ o with volume := v } : Order).isValid = decide (v ≠ 0) := by
  obtain ⟨hp, hc⟩ := h
  simp [isValid, hp, hc]

/-- An order of client "A" with both flags zero. -/
def plain (side : Side) (id ts priceQ4 volume : UInt32) : Order where
  idNs := pack id ts
  priceQ4 := priceQ4
  volume := volume
  side := side
  type := 0
  tim := 0
  client := #v[65, 0, 0, 0, 0, 0, 0, 0]

theorem volume_pos {o : Order} (h : o.isValid = true) : 0 < o.volume.toNat :=
  toNat_pos (isValid_iff.mp h).1

end Order

/-- The rule the two comparators share: price first, timestamp at equal prices. -/
def comparesBefore (better : UInt32 → UInt32 → Bool) (a b : Order) : Bool :=
  if a.priceQ4 = b.priceQ4 then
    decide ((Order.unpack a.idNs).timestampNs > (Order.unpack b.idNs).timestampNs)
  else better a.priceQ4 b.priceQ4

def buyOrderComparator : Comparator Order where
  lt := comparesBefore fun p q => decide (p > q)
  asymm a b := by grind [comparesBefore]
  connected a b c := by grind [comparesBefore]

def sellOrderComparator : Comparator Order where
  lt := comparesBefore fun p q => decide (p < q)
  asymm a b := by grind [comparesBefore]
  connected a b c := by grind [comparesBefore]

def comparator : Side → Comparator Order
  | .buy => buyOrderComparator
  | .sell => sellOrderComparator

/-- `p` is a strictly better price than `q` for a resting order of side `s`. -/
def betterPrice : Side → UInt32 → UInt32 → Prop
  | .buy, p, q => q < p
  | .sell, p, q => p < q

theorem comparator_lt_iff (s : Side) (a b : Order) :
    (comparator s).lt a b = true ↔
      betterPrice s a.priceQ4 b.priceQ4 ∨
        (a.priceQ4 = b.priceQ4 ∧ b.timestamp < a.timestamp) := by
  cases s <;>
    simp only [comparator, buyOrderComparator, sellOrderComparator, comparesBefore,
      betterPrice, Order.timestamp] <;>
    grind

/-- An order that no other precedes has a price at least as good as all of them. -/
theorem not_betterPrice_of_lt_eq_false {s : Side} {a b : Order}
    (h : (comparator s).lt a b = false) : ¬ betterPrice s a.priceQ4 b.priceQ4 := by
  intro hp
  have := (comparator_lt_iff s a b).mpr (.inl hp)
  simp [h] at this

/-- Of two orders of which the second does not precede the first, the first precedes
the second unless price and timestamp tie. -/
theorem lt_eq_false_iff_tied {s : Side} {a b : Order} (h : (comparator s).lt b a = false) :
    (comparator s).lt a b = false ↔ a.priceQ4 = b.priceQ4 ∧ a.timestamp = b.timestamp := by
  have notLater := mt (comparator_lt_iff s b a).mpr (by simp [h])
  have worse := not_betterPrice_of_lt_eq_false h
  constructor
  · intro tied
    have notEarlier := mt (comparator_lt_iff s a b).mpr (by simp [tied])
    have better := not_betterPrice_of_lt_eq_false tied
    have price : a.priceQ4 = b.priceQ4 := by
      cases s with
      | buy => exact UInt32.le_antisymm (UInt32.not_lt.mp better) (UInt32.not_lt.mp worse)
      | sell => exact UInt32.le_antisymm (UInt32.not_lt.mp worse) (UInt32.not_lt.mp better)
    simp only [price, true_and, not_or] at notLater notEarlier
    exact ⟨price, UInt32.le_antisymm (UInt32.not_lt.mp notEarlier.2)
      (UInt32.not_lt.mp notLater.2)⟩
  · rintro ⟨price, stamp⟩
    rw [Bool.eq_false_iff, ne_eq, comparator_lt_iff, price, stamp]
    rw [price] at worse
    simp only [true_and, not_or]
    exact ⟨worse, UInt32.lt_irrefl _⟩

end FastLittleMarket
