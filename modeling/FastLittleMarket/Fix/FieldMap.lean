import Mathlib.Algebra.Group.Int.Defs
import FastLittleMarket.Library.Chain
import FastLittleMarket.Library.KeyedList
import FastLittleMarket.Fix.Alloc
import FastLittleMarket.Fix.FieldTag

/-!
Fields, field lists and field maps. The maps are carved from a buffer, that of a
message or another one; a pointer to a map is its number in the order of allocation.
A field keeps its place in the message in 16 bits each for offset and length.
-/

namespace FastLittleMarket.Fix

/-- The ways a parser call ends without a defined result. -/
inductive ParseFault where
  | bufferOverflow
  | fieldListFull
  | nullPointer
  | intOverflow
  | outOfRange
  | badAlloc
  | unfinishedLoop
  deriving DecidableEq, Repr

structure Field where
  groups : Option Nat
  tail : Option Nat
  offset : UInt16
  length : UInt16
  tag : FieldTag
  deriving DecidableEq

namespace Field

/-- A field with the place `offset`, `length` in the message, cut to 16 bits. -/
def plain (tag : FieldTag) (offset length : Nat) : Field where
  groups := none
  tail := none
  offset := UInt16.ofNat offset
  length := UInt16.ofNat length
  tag := tag

/-- A field that heads a list of groups. -/
def ofGroups (tag : FieldTag) (offset length : Nat) (groups : Nat) : Field where
  groups := some groups
  tail := some groups
  offset := UInt16.ofNat offset
  length := UInt16.ofNat length
  tag := tag

def isEmpty (f : Field) : Bool := f.tag = .invalid

def isGroup (f : Field) : Bool := f.groups.isSome

/-- What a stored field hands on to the one that replaces it. -/
def takeOver (old new : Field) : Field :=
  if old.groups.isSome && !new.isGroup then
    { new with groups := old.groups, tail := old.tail }
  else new

def takeOverMerge : Merge Field.tag where
  merge := takeOver
  key_merge old new := by
    unfold takeOver
    split <;> rfl

end Field

def fixMsgMaxFieldCount : Nat := 64

abbrev FieldList := KeyedList Field.tag fixMsgMaxFieldCount

namespace FieldList

def put (l : FieldList) (fg : Field) : Except ParseFault FieldList :=
  match KeyedList.put Field.takeOverMerge l fg with
  | none => .error .fieldListFull
  | some l => .ok l

theorem put_eq_ok {l l' : FieldList} {f : Field} :
    l.put f = .ok l' ↔ KeyedList.put Field.takeOverMerge l f = some l' := by
  unfold put
  cases KeyedList.put Field.takeOverMerge l f <;> simp

end FieldList

structure FieldMap where
  next : Option Nat
  map : FieldList

namespace FieldMap

def new : FieldMap := ⟨none, .empty⟩

instance : Inhabited FieldMap := ⟨new⟩

end FieldMap

/-- The byte at an address of the message memory, which starts out as zeros. -/
def byteAt (bytes : List UInt8) (i : Nat) : UInt8 := bytes.getD i 0

def bytesFrom (bytes : List UInt8) (start length : Nat) : List UInt8 :=
  (List.range' start length).map (byteAt bytes)

/-- The result of an operation in a signed type that holds `-bound` up to `bound - 1`. -/
def inRange (bound v : Int) : Except ParseFault Int :=
  if -bound ≤ v ∧ v < bound then .ok v else .error .intOverflow

def inInt (v : Int) : Except ParseFault Int := inRange (2 ^ 31) v

/-- One round of the digit loop, over a signed character. -/
def digitStep (bound value : Int) (c : UInt8) : Except ParseFault Int := do
  let value ← inRange bound (value * 10)
  inRange bound (value + (c.toInt8.toInt - 48))

/-- The text that `parseInt` and `parseLong` share, over a signed type of that bound. -/
def parseSigned (bound : Int) (bytes : List UInt8) (start endExclusive : Nat) :
    Except ParseFault Int :=
  let negate := byteAt bytes start = 45
  let first := if negate then start + 1 else start
  if endExclusive < first then .error .outOfRange
  else do
    let value ← (bytesFrom bytes first (endExclusive - first)).foldlM (digitStep bound) 0
    if negate then inRange bound (value * -1) else pure value

def parseInt (bytes : List UInt8) (start endExclusive : Nat) : Except ParseFault Int :=
  parseSigned (2 ^ 31) bytes start endExclusive

def parseLong (bytes : List UInt8) (start endExclusive : Nat) : Except ParseFault Int :=
  parseSigned (2 ^ 63) bytes start endExclusive

/-- A buffer that memory for field maps is taken from, one map at a time. -/
class MapBuffer (β : Type) where
  allocate : β → Option β

instance (maxMessageSize : Nat) : MapBuffer (MessageBuffer maxMessageSize) where
  allocate buf := buf.allocate sizeofFieldMap sizeofFieldMap_le

/-- Field maps and the buffer they are carved from. -/
structure Heap (β : Type) where
  buf : β
  maps : List FieldMap

namespace Heap

variable {β : Type}

def deref (h : Heap β) (map : Nat) : Except ParseFault FieldMap :=
  match h.maps[map]? with
  | none => .error .nullPointer
  | some fm => .ok fm

def store (h : Heap β) (map : Nat) (fm : FieldMap) : Heap β :=
  { h with maps := h.maps.set map fm }

def set (h : Heap β) (map : Nat) (field : Field) : Except ParseFault (Heap β) := do
  let fm ← h.deref map
  let list ← fm.map.put field
  pure (h.store map { fm with map := list })

def get (h : Heap β) (map : Nat) (tag : FieldTag) : Except ParseFault (Option Field) := do
  let fm ← h.deref map
  pure (fm.map.find tag)

def getFields (h : Heap β) (map : Nat) : Except ParseFault (List Field) := do
  let fm ← h.deref map
  pure fm.map.items

def next (h : Heap β) (map : Nat) : Option Nat := (h.maps[map]?).bind FieldMap.next

def group (h : Heap β) (field : Field) (n : Nat) : Option Nat :=
  Chain.nth h.next n field.groups

def groupCount (h : Heap β) (field : Field) : Except ParseFault Nat :=
  Loop.run .unfinishedLoop (Chain.countBody h.next) (h.maps.length + 1) (0, field.groups)

/-- One more field map, if the buffer has room for it. -/
def carve [MapBuffer β] (h : Heap β) : Option (Heap β) :=
  (MapBuffer.allocate h.buf).map fun buf => ⟨buf, h.maps ++ [FieldMap.new]⟩

/-- The outcome is null when the buffer has no room for another field map. -/
def addGroup [MapBuffer β] (h : Heap β) (map : Nat) (tag : FieldTag) :
    Except ParseFault (Option Nat × Heap β) :=
  match h.carve with
  | none => .ok (none, h)
  | some grown => do
      let fm := h.maps.length
      let parent ← grown.deref map
      match parent.map.find tag with
      | none =>
          let list ← parent.map.put (Field.ofGroups tag 0 0 fm)
          pure (some fm, grown.store map { parent with map := list })
      | some field =>
          if !field.isGroup then
            let list ← parent.map.put { field with groups := some fm, tail := some fm }
            pure (some fm, grown.store map { parent with map := list })
          else
            match field.tail with
            | none => throw .nullPointer
            | some tail =>
                let last ← grown.deref tail
                let grown := grown.store tail { last with next := some fm }
                let parent ← grown.deref map
                let list ← parent.map.put { field with tail := some fm }
                pure (some fm, grown.store map { parent with map := list })

def getGroup (h : Heap β) (map : Nat) (tag : FieldTag) (index : Nat) :
    Except ParseFault (Option Nat) := do
  match ← h.get map tag with
  | none => pure none
  | some field => if !field.isGroup then pure none else pure (h.group field index)

end Heap

/-- The field maps of a message and the buffer they share with its bytes. -/
abbrev Arena (maxMessageSize : Nat) := Heap (MessageBuffer maxMessageSize)

namespace Arena

variable {maxMessageSize : Nat}

def getIntOf (bytes : List UInt8) (field : Field) : Except ParseFault (Option Int) :=
  if field.isEmpty then .ok none
  else some <$> parseInt bytes field.offset.toNat (field.offset.toNat + field.length.toNat)

def getInt (a : Arena maxMessageSize) (bytes : List UInt8) (map : Nat) (tag : FieldTag) :
    Except ParseFault (Option Int) := do
  match ← a.get map tag with
  | none => pure none
  | some field =>
      some <$> parseInt bytes field.offset.toNat (field.offset.toNat + field.length.toNat)

def getLong (a : Arena maxMessageSize) (bytes : List UInt8) (map : Nat) (tag : FieldTag) :
    Except ParseFault (Option Int) := do
  match ← a.get map tag with
  | none => pure none
  | some field =>
      some <$> parseLong bytes field.offset.toNat (field.offset.toNat + field.length.toNat)

end Arena

end FastLittleMarket.Fix
