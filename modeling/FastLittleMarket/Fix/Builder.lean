import FastLittleMarket.Fix.Digits

/-!
The message builder. Its memory is kept as the bytes in front of the write position;
pointers into it are distances from its start. A call that throws keeps what it has
written so far. Sizes are far below 2^64, so that the capacity check does not wrap.
-/

namespace FastLittleMarket.Fix

/-- The ways a builder call ends without returning: the exception, and the end of the
program when that exception leaves a `noexcept` function. -/
inductive BuilderFault where
  | lengthError
  | terminate
  deriving DecidableEq, Repr

def beginString : List UInt8 := ascii "8=FIX.5.0" ++ [soh]

structure Builder where
  maxMessageSize : Nat
  message : List UInt8
  bodyStart : Option Nat
  bodyLenDst : Option Nat
  bodyLength : Nat
  deriving DecidableEq, Repr

def toCharsInt (v : Int64) : List UInt8 :=
  if v.toInt < 0 then 45 :: toChars v.toInt.natAbs else toChars v.toInt.natAbs

structure Tm where
  year : Int
  mon : Int
  mday : Int
  hour : Int
  min : Int
  sec : Int

/-- The value argument of the overloads of `addField`. -/
inductive FieldValue where
  | text (sv : List UInt8)
  | int64 (v : Int64)
  | char (c : UInt8)
  deriving DecidableEq

def FieldValue.bytes : FieldValue → List UInt8
  | text sv => sv
  | int64 v => toCharsInt v
  | char c => [c]

namespace Builder

def bodyLenWidth : Nat := 6

def checksumWidth : Nat := 7

def new (maxMessageSize : Nat) : Builder := ⟨maxMessageSize, [], none, none, 0⟩

/-- A call on a builder, with the builder as it stands when the call ends. -/
abbrev Call := EStateM BuilderFault Builder

def checkCapacity (needed : Nat) : Call Unit := do
  let b ← get
  if b.message.length + needed + checksumWidth > b.maxMessageSize then throw .lengthError

def push (b : Builder) (sv : List UInt8) : Builder := { b with message := b.message ++ sv }

def write (sv : List UInt8) : Call Unit := do
  checkCapacity sv.length
  modify fun b => b.push sv

def writeChar (c : UInt8) : Call Unit := do
  checkCapacity 1
  modify fun b => b.push [c]

def writeInt (val : Int64) : Call Unit := write (toCharsInt val)

def writeTag (tag : FieldTag) : Call Unit := do
  write (ftof tag)
  writeChar equals

def writeSOH : Call Unit := writeChar soh

def accountBody : Call Unit :=
  modify fun b =>
    match b.bodyStart with
    | none => b
    | some start => { b with bodyLength := b.message.length - start }

/-- What the overloads of `addField` and `addTime` share. -/
def addWith (tag : FieldTag) (value : Call Unit) : Call Unit := do
  writeTag tag
  value
  writeSOH
  accountBody

def addField (tag : FieldTag) : FieldValue → Call Unit
  | .text value => addWith tag (write value)
  | .int64 value => addWith tag (writeInt value)
  | .char value => addWith tag (writeChar value)

def digitOf (v : Int) : UInt8 := UInt8.ofInt (48 + v)

def w2 (v : Int) : List UInt8 := [digitOf (v.tdiv 10), digitOf (v.tmod 10)]

def w3 (v : Int) : List UInt8 :=
  [digitOf (v.tdiv 100), digitOf ((v.tdiv 10).tmod 10), digitOf (v.tmod 10)]

def w4 (v : Int) : List UInt8 :=
  [digitOf (v.tdiv 1000), digitOf ((v.tdiv 100).tmod 10), digitOf ((v.tdiv 10).tmod 10),
    digitOf (v.tmod 10)]

def writeTime (gmt : Tm) (usec : Int) : Call Unit :=
  write (w4 (gmt.year + 1900) ++ w2 (gmt.mon + 1) ++ w2 gmt.mday ++ ascii "-" ++ w2 gmt.hour ++
    ascii ":" ++ w2 gmt.min ++ ascii ":" ++ w2 gmt.sec ++ ascii "." ++ w3 (usec.tdiv 1000))

/-- `addTime` of a time with the broken-down seconds `gmt`. -/
def addTime (tag : FieldTag) (gmt : Tm) (usec : Int) : Call Unit :=
  addWith tag (writeTime gmt usec)

/-- The header that `reset` writes, the digits of BodyLength still zeros. -/
def writeHeader : Call Unit := do
  write beginString
  write (ascii "9=")
  modify fun b => { b with bodyLenDst := some b.message.length }
  modify fun b => b.push (List.replicate bodyLenWidth 48)
  writeSOH
  modify fun b => { b with bodyStart := some b.message.length }

/-- An exception thrown inside ends the program. -/
def noexcept (call : Call Unit) : Call Unit := fun b =>
  match call.run b with
  | .ok u b => .ok u b
  | .error _ b => .error .terminate b

def reset : Call Unit :=
  noexcept do
    modify fun b => { b with message := [], bodyLenDst := none, bodyLength := 0 }
    writeHeader

/-- The copy of `append`, for a source other than the builder itself. -/
def copyFields (fields : List UInt8) : Call Unit := do
  checkCapacity fields.length
  modify fun b =>
    { b.push fields with
      bodyLength := if b.bodyStart.isSome then b.bodyLength + fields.length else b.bodyLength }

/-- `append` of another builder, which is returned as it is left. -/
def append (src : Builder) : Call Builder := do
  copyFields src.message
  match reset.run src with
  | .ok _ src => return src
  | .error e _ => throw e

def appendSelf : Call Unit := do
  copyFields (← get).message
  reset

/-- `xs` over the bytes of `message` from `dst` on. -/
def overwrite (message : List UInt8) (dst : Nat) (xs : List UInt8) : List UInt8 :=
  message.take dst ++ xs ++ message.drop (dst + xs.length)

/-- The characters that `to_chars` leaves in the local buffer `tmp`: where the number
has more digits than fit, they are unspecified, and `tmp` says which they are. -/
def lengthChars (tmp : Vector UInt8 6) (n : Nat) : List UInt8 :=
  if (toChars n).length ≤ bodyLenWidth then toChars n else tmp.toList

def backfillBodyLength (tmp : Vector UInt8 6) (b : Builder) : Builder :=
  match b.bodyLenDst with
  | none => b
  | some dst =>
      let chars := lengthChars tmp b.bodyLength
      let zeros := List.replicate (bodyLenWidth - chars.length) 48
      { b with message := overwrite b.message dst (zeros ++ chars) }

def byteSum (bytes : List UInt8) : UInt32 := bytes.foldl (fun sum c => sum + c.toUInt32) 0

/-- The local buffer of `writeChecksum`, its digits stored at 6, 5 and 4. -/
def checksumChars (message : List UInt8) : List UInt8 :=
  let sum := byteSum message % 256
  let digit (v : UInt32) : UInt8 := 48 + v.toUInt8
  (((ascii "10=000" ++ [soh]).set 6 (digit (sum % 10))).set 5 (digit (sum / 10 % 10))).set 4
    (digit (sum / 10 / 10 % 10))

def writeChecksum : Call Unit := do
  let b ← get
  checkCapacity checksumWidth
  modify fun _ => b.push (checksumChars b.message)

/-- The view of the finished message. -/
def build (tmp : Vector UInt8 6) : Call (List UInt8) := do
  modify (backfillBodyLength tmp)
  writeChecksum
  return (← get).message

end Builder

end FastLittleMarket.Fix
