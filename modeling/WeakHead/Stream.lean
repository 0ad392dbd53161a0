/-!
# Bit streams

Input and output go bit by bit, the most significant bit of a byte first.
Bytes pass between a stream and its device.
-/

namespace WeakHead

/-! ## Bits of a byte -/

namespace Byte

def toBits (byte : UInt8) : List Bool :=
  (List.range 8).map fun i => byte.toNat.testBit (7 - i)

def ofBits (bits : List Bool) : UInt8 :=
  bits.foldl (fun byte bit => 2 * byte + bit.toUInt8) 0

@[simp] theorem length_toBits (byte : UInt8) : (toBits byte).length = 8 := by
  simp [toBits]

@[simp] theorem ofBits_toBits (byte : UInt8) : ofBits (toBits byte) = byte := by
  have h : ∀ b : BitVec 8, ofBits (toBits ⟨b⟩) = ⟨b⟩ := by decide
  exact h byte.toBitVec

end Byte

/-!
## Bit input

An input is what its device will deliver, request by request. It is read one
bit at a time, and a byte is requested only when no bit of the last one is
left. An input that has ended delivers zero bytes for ever, and they do not
count as read.
-/

inductive Delivery where
  | byte (value : UInt8)
  | endOfInput
  | interrupted
  | failure (reason : String)
  deriving DecidableEq, Repr

/-- `deliveries` are still to come, and after them the input has ended. `bits` are those of the last
byte that have not been read. -/
structure Input where
  deliveries : List Delivery
  bits : List Bool
  bytesRead : Nat
  deriving DecidableEq, Repr

namespace Input

def ofDeliveries (deliveries : List Delivery) : Input := ⟨deliveries, [], 0⟩

def needsByte (input : Input) : Bool := input.bits.isEmpty

/-- Requests a byte, again for as long as the request is interrupted. -/
def request (bytesRead : Nat) : List Delivery → Except String Input
  | [] => .ok ⟨[], Byte.toBits 0, bytesRead⟩
  | .byte value :: rest => .ok ⟨rest, Byte.toBits value, bytesRead + 1⟩
  | .endOfInput :: rest => .ok ⟨rest, Byte.toBits 0, bytesRead⟩
  | .interrupted :: rest => request bytesRead rest
  | .failure reason :: _ => .error reason

def readBit (input : Input) : Except String (Bool × Input) := do
  let input ← if input.needsByte then request input.bytesRead input.deliveries else pure input
  return (input.bits.headD false, { input with bits := input.bits.tail })

end Input

/-!
## Bit output

A sink records what is written to it and how much had been written at each
flush; it may refuse to take more than a number of bytes or flushes. An
output collects bits and passes each whole byte on to its sink.
-/

/-- Each flush records how many bytes had been written. Without a limit, the sink takes any number
of bytes or flushes. -/
structure Sink where
  bytes : Array UInt8
  flushes : Array Nat
  byteLimit : Option Nat
  flushLimit : Option Nat
  deriving DecidableEq, Repr

namespace Sink

def limited (byteLimit flushLimit : Option Nat) : Sink := ⟨#[], #[], byteLimit, flushLimit⟩

def room (sink : Sink) (n : Nat) : Nat :=
  match sink.byteLimit with
  | none => n
  | some limit => min n (limit - sink.bytes.size)

/-- Writes as much of `data` as there is room for, and says whether that was all. -/
def write (sink : Sink) (data : Array UInt8) : Bool × Sink :=
  let taken := sink.room data.size
  if taken = data.size then (true, { sink with bytes := sink.bytes ++ data })
  else (false, { sink with bytes := sink.bytes ++ data.extract 0 taken })

def flush (sink : Sink) : Bool × Sink :=
  if sink.flushLimit.all (sink.flushes.size < ·) then
    (true, { sink with flushes := sink.flushes.push sink.bytes.size })
  else (false, sink)

end Sink

structure Output where
  sink : Sink
  bits : List Bool
  bytesWritten : Nat
  deriving DecidableEq, Repr

namespace Output

def ofSink (sink : Sink) : Output := ⟨sink, [], 0⟩

def writeBit (output : Output) (bit : Bool) : Bool × Output :=
  let bits := output.bits ++ [bit]
  if bits.length < 8 then (true, { output with bits := bits })
  else
    let (taken, sink) := output.sink.write #[Byte.ofBits bits]
    if taken then (true, ⟨sink, [], output.bytesWritten + 1⟩)
    else (false, { output with sink := sink })

end Output

end WeakHead
