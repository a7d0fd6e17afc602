import FastLittleMarket.Fix.FieldMap

/-!
The message parser. The message buffer is kept as the bytes before the scan position,
the bytes read ahead of it, and the bytes still in the stream; storing a byte past
the size of the message is a fault.
-/

namespace FastLittleMarket.Fix

structure GroupDef where
  groupCountTag : FieldTag
  groupEndTag : FieldTag
  deriving DecidableEq

structure GroupDefs where
  defs : List UInt8 → Option (List GroupDef)

namespace GroupDefs

def empty : GroupDefs := ⟨fun _ => none⟩

def add (g : GroupDefs) (msgType : List UInt8) (gd : GroupDef) : GroupDefs where
  defs := Function.update g.defs msgType (some ((g.defs msgType).getD [] ++ [gd]))

def addAll (g : GroupDefs) (msgType : List UInt8) (gds : List GroupDef) : GroupDefs where
  defs := Function.update g.defs msgType (some gds)

end GroupDefs

/-- The buffer around the scan position: `[msg_bytes, cp)`, `[cp, end)`, and the
stream. -/
structure Cursor where
  scanned : List UInt8
  ahead : List UInt8
  input : List UInt8

namespace Cursor

def bytes (c : Cursor) : List UInt8 := c.scanned ++ c.ahead

/-- `++cp`, over a byte that has been read. -/
def advance (c : Cursor) : Cursor :=
  match c.ahead with
  | [] => c
  | b :: ahead => { c with scanned := c.scanned ++ [b], ahead := ahead }

/-- The byte at the scan position, read if necessary; nothing at the end of input. -/
def ensureChar (maxMessageSize : Nat) (c : Cursor) :
    Except ParseFault (Option (UInt8 × Cursor)) :=
  match c.ahead with
  | b :: _ => .ok (some (b, c))
  | [] =>
      match c.input with
      | [] => .ok none
      | b :: input =>
          if maxMessageSize ≤ c.scanned.length then .error .bufferOverflow
          else .ok (some (b, { c with ahead := [b], input := input }))

def scanBody (maxMessageSize : Nat) (delimiter : UInt8) (c : Cursor) :
    Except ParseFault (Loop.Step Cursor (Bool × Cursor)) :=
  match c.ensureChar maxMessageSize with
  | .error e => .error e
  | .ok none => .ok (.exit (false, c))
  | .ok (some (b, c)) => if b = delimiter then .ok (.exit (true, c)) else .ok (.next c.advance)

/-- Scan to the delimiter; the flag is false when the input ends first. -/
def scanTo (maxMessageSize : Nat) (delimiter : UInt8) (c : Cursor) :
    Except ParseFault (Bool × Cursor) :=
  Loop.run .unfinishedLoop (scanBody maxMessageSize delimiter)
    (c.ahead.length + c.input.length + 1) c

/-- `in.read(end, n)`; the flag is false when fewer bytes are left. -/
def read (maxMessageSize : Nat) (n : Nat) (c : Cursor) : Except ParseFault (Bool × Cursor) :=
  let got := c.input.take n
  if maxMessageSize < c.scanned.length + c.ahead.length + got.length then .error .bufferOverflow
  else .ok (n ≤ c.input.length, { c with ahead := c.ahead ++ got, input := c.input.drop n })

end Cursor

structure Token where
  tag : FieldTag
  offset : Nat
  length : Nat
  deriving DecidableEq

/-- One field of the stream: its tag, its value, and the position of the delimiter
behind the value. Nothing when the input ends first. -/
def scanToken (maxMessageSize : Nat) (c : Cursor) :
    Except ParseFault (Option Token × Cursor) := do
  let start := c.scanned.length
  let (found, c) ← c.scanTo maxMessageSize equals
  if !found then return (none, c)
  let tag := (stoft (c.scanned.drop start)).getD .invalid
  let c := c.advance
  let start := c.scanned.length
  let (found, c) ← c.scanTo maxMessageSize soh
  if !found then return (none, c)
  return (some ⟨tag, start, c.scanned.length - start⟩, c)

structure ParseState (maxMessageSize : Nat) where
  cursor : Cursor
  arena : Arena maxMessageSize
  map : Option Nat
  stack : List Nat
  msgGroups : Option (List GroupDef)

variable {maxMessageSize : Nat}

/-- The bulk read of the rest of the message behind a BodyLength field. -/
def readBody (arena : Arena maxMessageSize) (map : Nat) (c : Cursor) :
    Except ParseFault (Bool × Cursor) := do
  let bodyLength := (← arena.getInt c.bytes map .bodyLength).getD 0
  let withTrailer ← inInt (bodyLength + 7)
  let toRead ← inInt (withTrailer - c.ahead.length)
  if 0 < toRead then c.read maxMessageSize toRead.toNat else pure (true, c)

/-- What the end tag of the group `gd` does in a map opened on the stack. -/
def closeGroup (st : ParseState maxMessageSize) (gd : GroupDef) :
    Except ParseFault (ParseState maxMessageSize) :=
  match st.stack with
  | [] => .ok st
  | parent :: stack => do
      match ← st.arena.get parent gd.groupCountTag with
      | none => pure st
      | some countField =>
          let expected := (← Arena.getIntOf st.cursor.bytes countField).getD 0
          let received ← st.arena.groupCount countField
          if (received : Int) ≥ expected then
            pure { st with map := some parent, stack := stack }
          else
            let (group, arena) ← st.arena.addGroup parent gd.groupCountTag
            pure { st with map := group, arena := arena }

/-- The loop over the group definitions of the message type. -/
def applyGroups (map : Nat) (tag : FieldTag) (st : ParseState maxMessageSize) :
    List GroupDef → Except ParseFault (ParseState maxMessageSize)
  | [] => .ok st
  | gd :: gds =>
      if gd.groupCountTag = tag then do
        let (group, arena) ← st.arena.addGroup map tag
        pure { st with map := group, arena := arena, stack := map :: st.stack }
      else if gd.groupEndTag = tag then closeGroup st gd
      else applyGroups map tag st gds

def groupStep (map : Nat) (tag : FieldTag) (st : ParseState maxMessageSize) :
    Except ParseFault (ParseState maxMessageSize) :=
  match st.msgGroups with
  | none => .ok st
  | some gds => applyGroups map tag st gds

def parseField (defs : GroupDefs) (st : ParseState maxMessageSize) :
    Except ParseFault (Loop.Step (ParseState maxMessageSize) (ParseState maxMessageSize)) := do
  let (token, c) ← scanToken maxMessageSize st.cursor
  let st := { st with cursor := c }
  match token with
  | none => return .exit st
  | some token =>
      if token.tag = .checkSum then return .exit st
      match st.map with
      | none => throw .nullPointer
      | some map =>
          let arena ← st.arena.set map (Field.plain token.tag token.offset token.length)
          let st := { st with arena := arena }
          let (complete, c) ←
            if token.tag = .bodyLength then readBody st.arena map st.cursor
            else pure (true, st.cursor)
          let st := { st with cursor := c }
          if !complete then return .exit st
          let msgGroups :=
            if token.tag = .msgType then
              defs.defs ((c.bytes.drop token.offset).take token.length)
            else st.msgGroups
          let st ← groupStep map token.tag
            { st with cursor := st.cursor.advance, msgGroups := msgGroups }
          return .next st

/-- A message of fixed size, its bytes and its field maps. -/
structure FixMessage (maxMessageSize : Nat) where
  msgBytes : List UInt8
  arena : Arena maxMessageSize

namespace FixMessage

def root : Nat := 0

/-- The field map and the message bytes, carved from an empty buffer. -/
def carve (buf : MessageBuffer maxMessageSize) : Except ParseFault (FixMessage maxMessageSize) :=
  match buf.allocate sizeofFieldMap sizeofFieldMap_le with
  | none => .error .badAlloc
  | some mapped =>
      match mapped.allocate maxMessageSize buf.admits.request with
      | none => .error .badAlloc
      | some buf => .ok ⟨[], buf, [FieldMap.new]⟩

/-- The constructor, over the block that `malloc` returned. -/
def new (admits : Admits maxMessageSize) (block : UInt64) (low : block.toNat + 2 ^ 32 < 2 ^ 64) :
    Except ParseFault (FixMessage maxMessageSize) :=
  carve (.new admits block low)

def reset (msg : FixMessage maxMessageSize) : Except ParseFault (FixMessage maxMessageSize) :=
  carve msg.arena.buf.reset

/-- The message with what the stream holds, and the rest of the stream. -/
def parse (input : List UInt8) (msg : FixMessage maxMessageSize) (defs : GroupDefs) :
    Except ParseFault (FixMessage maxMessageSize × List UInt8) := do
  let msg ← msg.reset
  let st ← Loop.run .unfinishedLoop (parseField defs) (input.length + 1)
    { cursor := ⟨[], [], input⟩, arena := msg.arena, map := some root, stack := [],
      msgGroups := none }
  pure (⟨st.cursor.bytes, st.arena⟩, st.cursor.input)

/-- `count` parse calls with one message, and what it holds after each. -/
def parseEach (defs : GroupDefs) : Nat → List UInt8 → FixMessage maxMessageSize →
    Except ParseFault (List (FixMessage maxMessageSize) × List UInt8)
  | 0, input, _ => .ok ([], input)
  | count + 1, input, msg => do
      let (msg, input) ← parse input msg defs
      let (later, input) ← parseEach defs count input msg
      pure (msg :: later, input)

def slice (msg : FixMessage maxMessageSize) (field : Field) : List UInt8 :=
  bytesFrom msg.msgBytes field.offset.toNat field.length.toNat

def getInt (msg : FixMessage maxMessageSize) (map : Nat) (tag : FieldTag) :
    Except ParseFault (Option Int) := msg.arena.getInt msg.msgBytes map tag

def getLong (msg : FixMessage maxMessageSize) (map : Nat) (tag : FieldTag) :
    Except ParseFault (Option Int) := msg.arena.getLong msg.msgBytes map tag

def getString (msg : FixMessage maxMessageSize) (map : Nat) (tag : FieldTag) :
    Except ParseFault (Option (List UInt8)) := do
  match ← msg.arena.get map tag with
  | none => pure none
  | some field => pure (some (msg.slice field))

def tags (msg : FixMessage maxMessageSize) (map : Nat) : Except ParseFault (List Field) := do
  let fm ← msg.arena.deref map
  pure fm.map.items

end FixMessage

end FastLittleMarket.Fix
