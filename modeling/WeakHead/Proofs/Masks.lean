import Mathlib.Data.Nat.Bitwise
import WeakHead.Proofs.BitStreams
import WeakHead.Proofs.Tracing

/-!
# Streams with a mask

A byte and a mask do for a list of bits. The mask is one bit of the byte; it
moves from the most significant bit to the least and is zero past it. Of a
byte that is read the bits from the mask on are left, of a byte that is
written the bits before the mask are set.
-/

namespace WeakHead

/-! ## Masks -/

namespace Byte

def mask (k : Nat) : UInt8 := UInt8.ofNat (0x80 >>> k)

theorem mask_of_le {k : Nat} (h : 8 ≤ k) : mask k = 0 := by
  have hzero : 0x80 >>> k = 0 :=
    Nat.shiftRight_eq_zero _ _ (Nat.lt_of_lt_of_le (by decide) (Nat.pow_le_pow_right (by decide) h))
  rw [mask, hzero]
  rfl

theorem mask_shift (k : Nat) : mask k >>> 1 = mask (k + 1) := by
  have hall : ∀ k : Fin 8, mask k >>> 1 = mask (k + 1) := by decide
  by_cases h : k < 8
  · exact hall ⟨k, h⟩
  · have hle : 8 ≤ k := Nat.not_lt.mp h
    rw [mask_of_le hle, mask_of_le (Nat.le_succ_of_le hle)]
    rfl

theorem mask_eq_zero_iff (k : Nat) : mask k = 0 ↔ 8 ≤ k := by
  have hall : ∀ k : Fin 8, mask k ≠ 0 := by decide
  exact ⟨fun h => Nat.not_lt.mp fun hk => hall ⟨k, hk⟩ h, mask_of_le⟩

theorem toNat_mask {k : Nat} (h : k < 8) : (mask k).toNat = 2 ^ (7 - k) := by
  have hall : ∀ k : Fin 8, (mask k).toNat = 2 ^ (7 - k.val) := by decide
  exact hall ⟨k, h⟩

theorem getElem?_toBits (byte : UInt8) {k : Nat} (h : k < 8) :
    (toBits byte)[k]? = some (byte.toNat.testBit (7 - k)) := by
  simp [toBits, h]

theorem and_mask (byte : UInt8) (k : Nat) :
    (byte &&& mask k != 0) = ((toBits byte).drop k).headD false := by
  rw [List.headD_eq_head?_getD, List.head?_drop]
  by_cases h : k < 8
  · have hand : (byte &&& mask k).toNat = (byte.toNat.testBit (7 - k)).toNat * 2 ^ (7 - k) := by
      rw [UInt8.toNat_and, toNat_mask h, Nat.and_two_pow]
    rw [getElem?_toBits byte h, Option.getD_some, Bool.eq_iff_iff, bne_iff_ne, Ne,
      ← UInt8.toNat_inj, hand]
    cases byte.toNat.testBit (7 - k) <;> simp
  · have hle : 8 ≤ k := Nat.not_lt.mp h
    rw [mask_of_le hle, List.getElem?_eq_none (by simpa using hle), UInt8.and_zero]
    rfl

theorem toBits_or_mask (byte : UInt8) {k : Nat} (h : k < 8) :
    toBits (byte ||| mask k) = (toBits byte).set k true := by
  apply List.ext_getElem
  · simp
  · intro i hi _
    have hi' : i < 8 := by simpa using hi
    have hsame : 7 - k = 7 - i ↔ k = i := by omega
    simp [toBits, List.getElem_set, toNat_mask h, Nat.testBit_two_pow, hsame, Bool.or_comm]

end Byte

/-! ## Reading -/

structure MaskReader where
  deliveries : List Delivery
  byte : UInt8
  mask : UInt8
  bytesRead : Nat

namespace MaskReader

def ofDeliveries (deliveries : List Delivery) : MaskReader := ⟨deliveries, 0, 0, 0⟩

def needsByte (r : MaskReader) : Bool := r.mask == 0

def fetch (bytesRead : Nat) : List Delivery → Except String MaskReader
  | [] => .ok ⟨[], 0, 0x80, bytesRead⟩
  | .byte value :: rest => .ok ⟨rest, value, 0x80, bytesRead + 1⟩
  | .endOfInput :: rest => .ok ⟨rest, 0, 0x80, bytesRead⟩
  | .interrupted :: rest => fetch bytesRead rest
  | .failure reason :: _ => .error reason

def readBit (r : MaskReader) : Except String (Bool × MaskReader) := do
  let r ← if r.needsByte then fetch r.bytesRead r.deliveries else pure r
  return (r.byte &&& r.mask != 0, { r with mask := r.mask >>> 1 })

/-- The bits of the byte from the mask on are those that are left of the input. -/
structure Reads (r : MaskReader) (input : Input) : Prop where
  deliveries_eq : r.deliveries = input.deliveries
  bytesRead_eq : r.bytesRead = input.bytesRead
  left : ∃ k, r.mask = Byte.mask k ∧ input.bits = (Byte.toBits r.byte).drop k

theorem reads_ofDeliveries (deliveries : List Delivery) :
    (ofDeliveries deliveries).Reads (.ofDeliveries deliveries) :=
  ⟨rfl, rfl, 8, rfl, rfl⟩

theorem fetch_reads (n : Nat) : ∀ deliveries : List Delivery,
    match fetch n deliveries with
    | .ok r => ∃ input, Input.request n deliveries = .ok input ∧ r.Reads input
    | .error reason => Input.request n deliveries = .error reason
  | [] => ⟨_, rfl, rfl, rfl, 0, rfl, rfl⟩
  | .byte _ :: _ => ⟨_, rfl, rfl, rfl, 0, rfl, rfl⟩
  | .endOfInput :: _ => ⟨_, rfl, rfl, rfl, 0, rfl, rfl⟩
  | .interrupted :: rest => fetch_reads n rest
  | .failure _ :: _ => rfl

section
variable {r : MaskReader} {input : Input} (h : r.Reads input)

include h

theorem Reads.needsByte_eq : r.needsByte = input.needsByte := by
  obtain ⟨k, hmask, hbits⟩ := h.left
  rw [Bool.eq_iff_iff, needsByte, beq_iff_eq, hmask, Byte.mask_eq_zero_iff, Input.needsByte, hbits,
    List.isEmpty_iff, List.drop_eq_nil_iff, Byte.length_toBits]

theorem Reads.move : (r.byte &&& r.mask != 0) = input.bits.headD false ∧
    Reads { r with mask := r.mask >>> 1 } { input with bits := input.bits.tail } := by
  obtain ⟨k, hmask, hbits⟩ := h.left
  refine ⟨?_, h.deliveries_eq, h.bytesRead_eq, k + 1, ?_, ?_⟩
  · rw [hmask, hbits, Byte.and_mask]
  · rw [hmask, Byte.mask_shift]
  · rw [hbits, List.tail_drop]

theorem Reads.readBit : match r.readBit with
    | .ok (bit, r') => ∃ input', input.readBit = .ok (bit, input') ∧ r'.Reads input'
    | .error reason => input.readBit = .error reason := by
  have hneeds := h.needsByte_eq
  unfold MaskReader.readBit Input.readBit
  by_cases hn : input.needsByte = true
  · have hfetch := fetch_reads r.bytesRead r.deliveries
    rw [hneeds, if_pos hn, if_pos hn, ← h.bytesRead_eq, ← h.deliveries_eq]
    cases hf : fetch r.bytesRead r.deliveries with
    | error reason =>
      rw [hf] at hfetch
      rw [hfetch]
      rfl
    | ok r₁ =>
      rw [hf] at hfetch
      obtain ⟨input₁, hrequest, hreads⟩ := hfetch
      obtain ⟨hbit, hmoved⟩ := hreads.move
      rw [hrequest]
      exact ⟨_, by rw [hbit]; rfl, hmoved⟩
  · obtain ⟨hbit, hmoved⟩ := h.move
    rw [hneeds, if_neg hn, if_neg hn]
    exact ⟨_, by rw [hbit]; rfl, hmoved⟩

end

end MaskReader

/-! ## Writing -/

structure MaskWriter where
  sink : Sink
  byte : UInt8
  mask : UInt8
  bytesWritten : Nat

namespace MaskWriter

def ofSink (sink : Sink) : MaskWriter := ⟨sink, 0, 0x80, 0⟩

def writeBit (w : MaskWriter) (bit : Bool) : Bool × MaskWriter :=
  let byte := if bit then w.byte ||| w.mask else w.byte
  let mask := w.mask >>> 1
  if mask == 0 then
    let (taken, sink) := w.sink.write #[byte]
    if taken then (true, ⟨sink, 0, 0x80, w.bytesWritten + 1⟩)
    else (false, ⟨sink, byte, mask, w.bytesWritten⟩)
  else (true, { w with byte := byte, mask := mask })

/-- The bits of the byte before the mask are those that the output holds back, the others are not
set. -/
structure Writes (w : MaskWriter) (output : Output) : Prop where
  sink_eq : w.sink = output.sink
  bytesWritten_eq : w.bytesWritten = output.bytesWritten
  length_bits : output.bits.length < 8
  mask_eq : w.mask = Byte.mask output.bits.length
  toBits_byte : Byte.toBits w.byte =
    output.bits ++ List.replicate (8 - output.bits.length) false

theorem writes_ofSink (sink : Sink) : (ofSink sink).Writes (.ofSink sink) :=
  ⟨rfl, rfl, Nat.zero_lt_succ 7, rfl, Byte.toBits_zero⟩

section
variable {w : MaskWriter} {output : Output} (h : w.Writes output)

include h

theorem Writes.toBits_set (bit : Bool) :
    Byte.toBits (if bit then w.byte ||| w.mask else w.byte) =
      output.bits ++ [bit] ++ List.replicate (7 - output.bits.length) false := by
  have hlt := h.length_bits
  have hzeros : List.replicate (8 - output.bits.length) false =
      false :: List.replicate (7 - output.bits.length) false := by
    rw [← List.replicate_succ]
    congr 1
    omega
  have hbyte := h.toBits_byte
  rw [hzeros] at hbyte
  cases bit with
  | false => simpa using hbyte
  | true =>
    rw [if_pos rfl, h.mask_eq, Byte.toBits_or_mask w.byte hlt, hbyte]
    simp

theorem Writes.writeBit (bit : Bool) : match w.writeBit bit with
    | (true, w') => ∃ output', output.writeBit bit = (true, output') ∧ w'.Writes output'
    | (false, w') => ∃ output', output.writeBit bit = (false, output') ∧
        w'.sink = output'.sink := by
  have hset := h.toBits_set bit
  have hlen : (output.bits ++ [bit]).length = output.bits.length + 1 := List.length_append
  have hlt := h.length_bits
  unfold MaskWriter.writeBit Output.writeBit
  dsimp only
  generalize (if bit then w.byte ||| w.mask else w.byte) = byte at hset ⊢
  rw [h.mask_eq, Byte.mask_shift]
  by_cases hl : output.bits.length < 7
  · have hmask : ¬ (Byte.mask (output.bits.length + 1) == 0) = true := by
      rw [beq_iff_eq, Byte.mask_eq_zero_iff]
      omega
    have hheld : (output.bits ++ [bit]).length < 8 := by omega
    rw [if_neg hmask, if_pos hheld]
    refine ⟨_, rfl, h.sink_eq, h.bytesWritten_eq, hheld, by rw [hlen], ?_⟩
    rw [hlen, hset]
    congr 2
    omega
  · have hmask : (Byte.mask (output.bits.length + 1) == 0) = true := by
      rw [beq_iff_eq, Byte.mask_eq_zero_iff]
      omega
    have hwhole : ¬ (output.bits ++ [bit]).length < 8 := by omega
    have hbyte : Byte.ofBits (output.bits ++ [bit]) = byte := by
      have hzeros : 7 - output.bits.length = 0 := by omega
      rw [hzeros, List.replicate_zero, List.append_nil] at hset
      rw [← hset, Byte.ofBits_toBits]
    rw [if_pos hmask, if_neg hwhole, hbyte, h.sink_eq]
    rcases output.sink.write #[byte] with ⟨taken, sink⟩
    cases taken with
    | true =>
      exact ⟨_, rfl, rfl, congrArg (· + 1) h.bytesWritten_eq, Nat.zero_lt_succ 7, rfl,
        Byte.toBits_zero⟩
    | false => exact ⟨_, rfl, rfl⟩

end

end MaskWriter

/-! ## Operations -/

structure MaskStreams where
  reader : MaskReader
  writer : MaskWriter

namespace MaskStreams

def start (deliveries : List Delivery) (sink : Sink) : MaskStreams :=
  ⟨.ofDeliveries deliveries, .ofSink sink⟩

def flush (s : MaskStreams) : Except StreamFailure MaskStreams :=
  let (done, sink) := s.writer.sink.flush
  if done then .ok { s with writer := { s.writer with sink := sink } } else .error .flushRefused

def readBit (s : MaskStreams) : Except StreamFailure (Option Bool × MaskStreams) :=
  match s.reader.readBit with
  | .ok (bit, reader) => .ok (some bit, { s with reader := reader })
  | .error reason => .error (.input reason)

def perform (s : MaskStreams) : BitOp → Except StreamFailure (Option Bool × MaskStreams)
  | .read => if s.reader.needsByte then s.flush >>= readBit else s.readBit
  | .write bit =>
    let (taken, writer) := s.writer.writeBit bit
    if taken then .ok (none, { s with writer := writer }) else .error .sinkFull

def performAll (s : MaskStreams) (ops : List BitOp) : Except StreamFailure MaskStreams :=
  ops.foldlM (fun s op => (s.perform op).map Prod.snd) s

end MaskStreams

structure MaskStreams.Serves (s : MaskStreams) (m : Machine) : Prop where
  untraced : m.settings.trace = false
  reads : s.reader.Reads m.input
  writes : s.writer.Writes m.output

def MaskStreams.Passes (spine : Spine) (passed : Option Bool × MaskStreams) (m : Machine) : Prop :=
  passed.2.Serves m ∧ m.spine = passed.1.elim spine fun bit => spine.push (.ofBit bit)

/-- The machine fails as the streams do, and else the results are related. -/
def Progress.Matches {α : Type} (R : α → Machine → Prop) (p : Progress) :
    Except StreamFailure α → Prop
  | .ok a => ∃ m, p = .running m ∧ R a m
  | .error cause => ∃ m, p = .ended (.failed cause) m

theorem Progress.Matches.bind {α β : Type} {R : α → Machine → Prop} {R' : β → Machine → Prop}
    {p : Progress} {x : Except StreamFailure α} {f : α → Except StreamFailure β}
    {next : Machine → Progress} (h : p.Matches R x)
    (hnext : ∀ a m, R a m → (next m).Matches R' (f a)) : (p.andThen next).Matches R' (x >>= f) := by
  cases x with
  | ok a =>
    obtain ⟨m, rfl, hm⟩ := h
    exact hnext a m hm
  | error cause =>
    obtain ⟨m, rfl⟩ := h
    exact ⟨m, rfl⟩

namespace MaskStreams

section
variable {s : MaskStreams} {m : Machine} (h : s.Serves m)

include h

theorem Serves.flush : m.flush.Matches (fun s' m' => s'.Serves m' ∧ m'.spine = m.spine) s.flush := by
  unfold MaskStreams.flush Machine.flush
  rw [h.writes.sink_eq]
  rcases m.output.sink.flush with ⟨done, sink⟩
  cases done with
  | true =>
    exact ⟨_, rfl, ⟨h.untraced, h.reads, rfl, h.writes.bytesWritten_eq, h.writes.length_bits,
      h.writes.mask_eq, h.writes.toBits_byte⟩, rfl⟩
  | false => exact ⟨_, rfl⟩

theorem Serves.readBit : Progress.Matches (Passes m.spine)
    (match m.input.readBit with
      | .ok (bit, input) => .running { m with input := input, spine := m.spine.push (.ofBit bit) }
      | .error reason => .ended (.failed (.input reason)) m) s.readBit := by
  have hread := h.reads.readBit
  unfold MaskStreams.readBit
  cases hr : s.reader.readBit with
  | error reason =>
    rw [hr] at hread
    exact ⟨m, by rw [show m.input.readBit = _ from hread]⟩
  | ok result =>
    obtain ⟨bit, reader⟩ := result
    rw [hr] at hread
    obtain ⟨input, hinput, hreads⟩ := hread
    rw [hinput]
    exact ⟨_, rfl, ⟨h.untraced, hreads, h.writes⟩, rfl⟩

theorem Serves.read : m.read.Matches (Passes m.spine) (s.perform .read) := by
  unfold perform Machine.read
  rw [h.reads.needsByte_eq]
  by_cases hn : m.input.needsByte = true
  · rw [if_pos hn, if_pos hn]
    refine h.flush.bind ?_
    rintro s' m' ⟨hserves, hspine⟩
    rw [← hspine]
    exact hserves.readBit
  · rw [if_neg hn, if_neg hn]
    exact h.readBit

theorem Serves.write (bit : Bool) : (m.write bit).Matches (Passes m.spine)
    (s.perform (.write bit)) := by
  have hwrite := h.writes.writeBit bit
  unfold perform Machine.write
  dsimp only
  rcases hw : s.writer.writeBit bit with ⟨taken, w⟩
  rw [hw] at hwrite
  cases taken with
  | true =>
    obtain ⟨output, houtput, hwrites⟩ := hwrite
    rw [houtput]
    exact ⟨_, rfl, ⟨h.untraced, h.reads, hwrites⟩, rfl⟩
  | false =>
    obtain ⟨output, houtput, -⟩ := hwrite
    rw [houtput]
    exact ⟨_, rfl⟩

theorem Serves.execute (op : BitOp) : (m.execute op).Matches (Passes m.spine) (s.perform op) := by
  have hexecuted : (match op with
      | .read => m.read
      | .write bit => m.write bit).Matches (Passes m.spine) (s.perform op) := by
    cases op with
    | read => exact h.read
    | write bit => exact h.write bit
  rw [← bind_pure (s.perform op)]
  refine hexecuted.bind ?_
  rintro ⟨bit?, s'⟩ m' ⟨hserves, hspine⟩
  exact ⟨_, rfl, ⟨hserves.untraced, hserves.reads, hserves.writes⟩, hspine⟩

end

/-! ## Runs -/

theorem performAll_append (s : MaskStreams) (ops ops' : List BitOp) :
    s.performAll (ops ++ ops') = s.performAll ops >>= fun s => s.performAll ops' :=
  List.foldlM_append

abbrev Accompanies (s : MaskStreams) (ops : List BitOp) (p : Progress) : Prop :=
  p.Sat (fun m => ∃ s', s.performAll ops = .ok s' ∧ s'.Serves m)
    fun e m => match s.performAll ops >>= flush with
      | .ok s' => s'.Serves m ∧ ∀ cause, e ≠ .failed cause
      | .error cause => e = .failed cause

section
variable {s : MaskStreams} {m : Machine} (h : s.Serves m)

include h

theorem Serves.stop {e : Ending} (he : ∀ cause, e ≠ .failed cause) :
    s.Accompanies [] (m.stop e) := by
  have hflush := h.flush
  have hperform : s.performAll [] >>= MaskStreams.flush = s.flush := rfl
  unfold Machine.stop
  cases hf : s.flush with
  | error cause =>
    rw [hf] at hflush hperform
    obtain ⟨m', hm'⟩ := hflush
    rw [hm']
    simp only [Progress.andThen, Progress.Sat, hperform]
  | ok s' =>
    rw [hf] at hflush hperform
    obtain ⟨m', hm', hserves, -⟩ := hflush
    rw [hm']
    simp only [Progress.andThen, Progress.Sat, hperform]
    exact ⟨hserves, he⟩

theorem Serves.operation (op : BitOp) : s.Accompanies [op] (m.execute op) := by
  have hexecute := h.execute op
  have hperform : s.performAll [op] = (s.perform op).map Prod.snd := bind_pure _
  unfold Accompanies
  rw [hperform]
  cases hp : s.perform op with
  | error cause =>
    rw [hp] at hexecute
    obtain ⟨m', hm'⟩ := hexecute
    rw [hm']
    rfl
  | ok passed =>
    rw [hp] at hexecute
    obtain ⟨m', hm', hserves, -⟩ := hexecute
    rw [hm']
    exact ⟨passed.2, rfl, hserves⟩

theorem Serves.step : s.Accompanies m.operation?.toList m.step := by
  rw [Machine.step_eq_of_rule]
  unfold Machine.operation?
  cases hr : m.rule with
  | stop ending => exact h.stop (Machine.ne_failed_of_rule hr)
  | unwind func arg => exact ⟨s, rfl, h.untraced, h.reads, h.writes⟩
  | beta =>
    dsimp only
    cases hb : m.beta with
    | error fault => trivial
    | ok m' =>
      obtain ⟨focus, spine, placeholders, rfl⟩ := Machine.beta_changes hb
      exact ⟨s, rfl, h.untraced, h.reads, h.writes⟩
  | dispatch id =>
    have hserves : s.Serves m.takeNearest := ⟨h.untraced, h.reads, h.writes⟩
    have hannounce : m.takeNearest.announce id m.spine.nearest = .running m.takeNearest := by
      rw [Machine.announce, if_neg (by rw [hserves.untraced]; nofun)]
    show s.Accompanies _ ((m.takeNearest.announce id m.spine.nearest).andThen _)
    rw [hannounce]
    dsimp only [Progress.andThen]
    cases BitOp.ofAtomId? id with
    | some op => exact hserves.operation op
    | none => exact hserves.stop nofun

theorem Serves.run (n : Nat) : s.Accompanies (m.operations n) (Machine.run n m) := by
  induction n generalizing m s with
  | zero => exact ⟨s, rfl, h⟩
  | succ n ih =>
    have hstep := h.step
    rw [Machine.run_succ, Machine.operations_succ]
    cases hs : m.step with
    | running m₁ =>
      rw [hs] at hstep
      obtain ⟨s', hperform, hserves⟩ := hstep
      have hrest : s.performAll (m.operation?.toList ++ m₁.operations n) =
          s'.performAll (m₁.operations n) := by
        rw [performAll_append, hperform]
        rfl
      unfold Accompanies
      rw [hrest]
      exact ih hserves
    | ended e m₁ =>
      rw [hs] at hstep
      rw [List.append_nil]
      exact hstep
    | faulted fault => trivial

end

end MaskStreams

/-- **A byte and a mask do for a list of bits.** Without a trace, streams with masks that perform
the operations of a run read, write, flush and fail as the run does. -/
theorem Machine.run_on_masks (limit : Option Nat) (program : Term) (deliveries : List Delivery)
    (sink : Sink) (n : Nat) :
    let m := start ⟨false, limit⟩ program (.ofDeliveries deliveries) sink
    let s := MaskStreams.start deliveries sink
    (∀ m₁, run n m = .running m₁ →
      ∃ s₁, s.performAll (operations n m) = .ok s₁ ∧ s₁.Serves m₁) ∧
    ∀ e m₁, run n m = .ended e m₁ →
      match s.performAll (operations n m) >>= MaskStreams.flush with
      | .ok s₁ => s₁.Serves m₁ ∧ ∀ cause, e ≠ .failed cause
      | .error cause => e = .failed cause := by
  intro m s
  have hserves : s.Serves m :=
    ⟨rfl, MaskReader.reads_ofDeliveries deliveries, MaskWriter.writes_ofSink sink⟩
  have hrun := hserves.run n
  constructor
  · intro m₁ hm₁
    rw [hm₁] at hrun
    exact hrun
  · intro e m₁ hm₁
    rw [hm₁] at hrun
    exact hrun

end WeakHead
