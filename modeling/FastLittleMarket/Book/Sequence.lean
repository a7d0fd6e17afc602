import FastLittleMarket.Book.Order

/-!
Orders constructed one after the other from one sequencer.

The sequencer counts in 64 bits, the packed id keeps the low 32 of what it
returns. Two orders of one client are in issue order as long as these low bits do
not wrap between them.
-/

namespace FastLittleMarket

/-- What the constructor is called with, the sequencer apart. -/
structure OrderArguments where
  id : Int32
  priceQ4 : UInt32
  vol : UInt32
  isBuy : Bool
  client : StringView
  unset : UnsetFlags

namespace Order

def construct (sequencer : GlobalSequencer) (a : OrderArguments) : Order × GlobalSequencer :=
  new a.id a.priceQ4 a.vol a.isBuy a.client sequencer a.unset

def constructAll (sequencer : GlobalSequencer) : List OrderArguments → List Order
  | [] => []
  | a :: rest =>
      let (order, sequencer) := construct sequencer a
      order :: constructAll sequencer rest

/-- The 32 bits the constructor packs of the next value of the sequencer. -/
def nextStamp (sequencer : GlobalSequencer) : Nat :=
  (sequencer.epochNs.toNat + sequencer.seqCounter.toNat) % 4294967296

theorem toNat_nextTimestampNs (sequencer : GlobalSequencer) :
    sequencer.nextTimestampNs.1.toUInt32.toNat = nextStamp sequencer := by
  simp only [GlobalSequencer.nextTimestampNs, UInt64.toNat_toUInt32, UInt64.toNat_add, nextStamp]
  omega

theorem nextStamp_nextTimestampNs (sequencer : GlobalSequencer) :
    nextStamp sequencer.nextTimestampNs.2 = (nextStamp sequencer + 1) % 4294967296 := by
  have one : (1 : UInt64).toNat = 1 := rfl
  simp only [GlobalSequencer.nextTimestampNs, nextStamp, UInt64.toNat_add, one]
  omega

theorem construct_idNs (sequencer : GlobalSequencer) (a : OrderArguments) :
    (construct sequencer a).1.idNs =
      pack a.id.toUInt32 sequencer.nextTimestampNs.1.toUInt32 := rfl

theorem construct_timestamp (sequencer : GlobalSequencer) (a : OrderArguments) :
    (construct sequencer a).1.timestamp.toNat = nextStamp sequencer := by
  rw [timestamp, construct_idNs, unpack_pack, ← toNat_nextTimestampNs]

theorem construct_nextStamp (sequencer : GlobalSequencer) (a : OrderArguments) :
    nextStamp (construct sequencer a).2 = (nextStamp sequencer + 1) % 4294967296 :=
  nextStamp_nextTimestampNs sequencer

theorem constructAll_get (sequencer : GlobalSequencer) {arguments : List OrderArguments}
    {i : Nat} {a : OrderArguments} (at_i : arguments[i]? = some a) :
    ∃ o, (constructAll sequencer arguments)[i]? = some o ∧
      (unpack o.idNs).id = a.id.toUInt32 ∧
      o.timestamp.toNat = (nextStamp sequencer + i) % 4294967296 := by
  induction arguments generalizing sequencer i with
  | nil => simp at at_i
  | cons b rest ih =>
      cases i with
      | zero =>
          obtain rfl : b = a := by simpa using at_i
          refine ⟨(construct sequencer b).1, rfl, ?_, ?_⟩
          · rw [construct_idNs, unpack_pack]
          · rw [construct_timestamp, Nat.add_zero, nextStamp, Nat.mod_mod]
      | succ i =>
          obtain ⟨o, found, id, stamp⟩ :=
            ih (construct sequencer b).2 (i := i) (by simpa using at_i)
          refine ⟨o, found, id, ?_⟩
          rw [stamp, construct_nextStamp]
          omega

theorem idNs_ne_of_timestamp_lt {a b : Order} (h : a.timestamp < b.timestamp) :
    a.idNs ≠ b.idNs := by
  intro same
  rw [timestamp, timestamp, same] at h
  exact UInt32.lt_irrefl _ h

/-- Of two orders of one client, the earlier one has another id and a smaller stamp
exactly when the low 32 bits of the sequencer do not wrap between them. -/
theorem ids_in_issue_order_iff (sequencer : GlobalSequencer) {arguments : List OrderArguments}
    {i j : Nat} {a b : OrderArguments} (earlier : i < j) (first : arguments[i]? = some a)
    (second : arguments[j]? = some b) (client : a.id = b.id) :
    ∃ o p, (constructAll sequencer arguments)[i]? = some o ∧
      (constructAll sequencer arguments)[j]? = some p ∧
      (unpack o.idNs).id = (unpack p.idNs).id ∧
      ((o.idNs ≠ p.idNs ∧ (unpack o.idNs).timestampNs < (unpack p.idNs).timestampNs) ↔
        (j - i) % 4294967296 ≠ 0 ∧
          (sequencer.epochNs.toNat + sequencer.seqCounter.toNat + i) % 4294967296 +
            (j - i) % 4294967296 < 4294967296) := by
  obtain ⟨o, at_i, id_i, stamp_i⟩ := constructAll_get sequencer first
  obtain ⟨p, at_j, id_j, stamp_j⟩ := constructAll_get sequencer second
  refine ⟨o, p, at_i, at_j, by rw [id_i, id_j, client], ?_⟩
  have both : (o.idNs ≠ p.idNs ∧
      (unpack o.idNs).timestampNs < (unpack p.idNs).timestampNs) ↔
      o.timestamp < p.timestamp :=
    and_iff_right_of_imp idNs_ne_of_timestamp_lt
  rw [both, UInt32.lt_iff_toNat_lt, stamp_i, stamp_j, nextStamp]
  omega

theorem ids_in_issue_order_iff_two :
    let a : OrderArguments := ⟨7, 100, 1, true, ⟨fun _ => 65, 1⟩, ⟨0, 0⟩⟩
    ∃ o p, constructAll ⟨3, 2⟩ [a, a] = [o, p] ∧ o.idNs ≠ p.idNs ∧
      (unpack o.idNs).timestampNs < (unpack p.idNs).timestampNs := by
  intro a
  have first : [a, a][0]? = some a := rfl
  have second : [a, a][1]? = some a := rfl
  obtain ⟨o, p, at_i, at_j, -, iff⟩ :=
    ids_in_issue_order_iff ⟨3, 2⟩ (by decide) first second rfl
  refine ⟨o, p, ?_, iff.mpr (by decide)⟩
  rw [← Option.some.inj at_i, ← Option.some.inj at_j]
  rfl

/-- An epoch whose low 32 bits are all ones: the second order of a client has the
stamp 0, the first one the largest there is. -/
theorem second_id_wraps :
    let a : OrderArguments := ⟨7, 100, 1, true, ⟨fun _ => 65, 1⟩, ⟨0, 0⟩⟩
    ∃ o p, constructAll ⟨0xFFFFFFFF, 0⟩ [a, a] = [o, p] ∧
      ¬ (unpack o.idNs).timestampNs < (unpack p.idNs).timestampNs := by
  refine ⟨_, _, rfl, ?_⟩
  decide +kernel

end Order

end FastLittleMarket
