import WeakHead.Proofs.BitStreams
import WeakHead.Proofs.Requests
import WeakHead.Proofs.TermInvariants
import WeakHead.Proofs.Tracing

/-!
# Bits and whole bytes

A program reads and writes bits, its device and its sink deal in bytes. On
both sides the most significant bit of a byte is the first. A byte is
requested when its first bit is to be read, and it is written with its last
bit, in whatever order reads and writes come.
-/

namespace WeakHead

/-! ## Bits of bytes -/

namespace Byte

def bitAt (bytes : Nat → UInt8) (i : Nat) : Bool := (bytes (i / 8)).toNat.testBit (7 - i % 8)

theorem toBits_eq_map_bitAt (bytes : Nat → UInt8) (q : Nat) :
    toBits (bytes q) = (List.range' (8 * q) 8).map (bitAt bytes) := by
  rw [toBits, List.range'_eq_map_range, List.map_map]
  apply List.map_congr_left
  intro i hi
  have hlt : i < 8 := List.mem_range.mp hi
  have hdiv : (8 * q + i) / 8 = q := by omega
  have hmod : (8 * q + i) % 8 = i := by omega
  simp only [Function.comp, bitAt, hdiv, hmod]

theorem getElem?_flatMap_toBits {bytes : List UInt8} {i : Nat} (h : i < 8 * bytes.length) :
    (bytes.flatMap toBits)[i]? = some (bitAt (bytes.getD · 0) i) := by
  induction bytes generalizing i with
  | nil => cases h
  | cons byte bytes ih =>
    rw [List.flatMap_cons]
    by_cases hi : i < 8
    · have hdiv : i / 8 = 0 := Nat.div_eq_of_lt hi
      rw [List.getElem?_append_left (by simpa using hi), bitAt, hdiv, Nat.mod_eq_of_lt hi]
      simp [toBits, hi]
    · have hlen : i - 8 < 8 * bytes.length := by
        rw [List.length_cons] at h
        omega
      have hdiv : i / 8 = (i - 8) / 8 + 1 := by omega
      have hmod : i % 8 = (i - 8) % 8 := by omega
      rw [List.getElem?_append_right (by simpa using hi), length_toBits, ih hlen]
      simp only [bitAt, hdiv, hmod, List.getD_cons_succ]

theorem length_flatMap_toBits (bytes : List UInt8) :
    (bytes.flatMap toBits).length = 8 * bytes.length := by
  induction bytes with
  | nil => rfl
  | cons byte bytes ih =>
    rw [List.flatMap_cons, List.length_append, length_toBits, ih, List.length_cons, Nat.mul_succ,
      Nat.add_comm]

end Byte

/-! ## Output -/

/-- The bits `bits` have been written, whole bytes of them to a sink that takes everything. -/
structure Output.Packs (bits : List Bool) (output : Output) : Prop where
  takesAll : output.sink.TakesAll
  length_bits : output.bits.length < 8
  bytesWritten_eq : output.bytesWritten = output.sink.bytes.size
  written_eq : output.written = bits

namespace Output.Packs

section
variable {bits : List Bool} {output : Output} (h : output.Packs bits)

include h

theorem size_eq : output.sink.bytes.size = bits.length / 8 := by
  have hlen := congrArg List.length h.written_eq
  rw [written, List.length_append, Byte.length_flatMap_toBits, Array.length_toList] at hlen
  have hlt := h.length_bits
  omega

theorem getElem?_eq {i : Nat} (hi : i < 8 * (bits.length / 8)) :
    bits[i]? = some (Byte.bitAt (output.sink.bytes.getD · 0) i) := by
  rw [← h.size_eq, ← Array.length_toList] at hi
  rw [← h.written_eq, written,
    List.getElem?_append_left (by rwa [Byte.length_flatMap_toBits]),
    Byte.getElem?_flatMap_toBits hi]
  simp [Array.getD_eq_getD_getElem?, List.getD_eq_getElem?_getD]

theorem flush : Packs bits { output with sink := output.sink.accept .flush } :=
  ⟨h.takesAll.accept .flush, h.length_bits, h.bytesWritten_eq, h.written_eq⟩

theorem write (bit : Bool) : Packs (bits ++ [bit])
    { output.addBit bit with
      sink := output.sink.acceptAll
        ((output.completed? bit).toList.map fun byte => .write #[byte]) } := by
  have hlen : (output.bits ++ [bit]).length = output.bits.length + 1 := List.length_append
  unfold completed? addBit
  by_cases hl : output.bits.length < 7
  · simp only [if_pos hl]
    refine ⟨h.takesAll, ?_, h.bytesWritten_eq, ?_⟩
    · rw [hlen]
      omega
    · rw [← h.written_eq]
      exact (List.append_assoc ..).symm
  · -- the bit is the last of a byte
    have hbyte : Byte.toBits (Byte.ofBits (output.bits ++ [bit])) = output.bits ++ [bit] := by
      have hw := h.length_bits
      exact Byte.toBits_ofBits (by omega)
    simp only [if_neg hl]
    refine ⟨h.takesAll.acceptAll _, Nat.zero_lt_succ 7, ?_, ?_⟩
    · have hsize := h.bytesWritten_eq
      simpa [Sink.acceptAll, Sink.accept] using hsize
    · rw [← h.written_eq]
      simp [written, Sink.acceptAll, Sink.accept, hbyte]

end

end Output.Packs

/-! ## Input -/

def Delivery.byte? : Delivery → Option UInt8
  | .byte value => some value
  | .endOfInput => none
  | .interrupted => none
  | .failure _ => none

def PlainBytes (deliveries : List Delivery) : Prop :=
  ∀ d ∈ deliveries, d = .endOfInput ∨ ∃ value, d = .byte value

/-- What the requests bring one after the other, zeros at each end of the input and after it. -/
def byteAt (deliveries : List Delivery) (i : Nat) : UInt8 :=
  (deliveries[i]?.bind Delivery.byte?).getD 0

/-- Of the bits of a device `r` have been read and those of `q` bytes requested. -/
structure Input.Unpacks (deliveries : List Delivery) (r q : Nat) (input : Input) : Prop where
  read_le : r ≤ 8 * q
  deliveries_eq : input.deliveries = deliveries.drop q
  bits_eq : input.bits = (List.range' r (8 * q - r)).map (Byte.bitAt (byteAt deliveries))
  bytesRead_eq : input.bytesRead = ((deliveries.take q).filterMap Delivery.byte?).length

namespace Input

theorem request_drop {deliveries : List Delivery} (hd : PlainBytes deliveries) (n q : Nat) :
    request n (deliveries.drop q) = .ok ⟨deliveries.drop (q + 1),
      Byte.toBits (byteAt deliveries q),
      n + (deliveries[q]?.bind Delivery.byte?).toList.length⟩ := by
  by_cases hq : q < deliveries.length
  · rw [List.drop_eq_getElem_cons hq, byteAt, List.getElem?_eq_getElem hq]
    rcases hd _ (List.getElem_mem hq) with hend | ⟨value, hbyte⟩
    · rw [hend]
      rfl
    · rw [hbyte]
      rfl
  · have hle : deliveries.length ≤ q := Nat.not_lt.mp hq
    rw [List.drop_eq_nil_of_le hle, List.drop_eq_nil_of_le (Nat.le_succ_of_le hle), byteAt,
      List.getElem?_eq_none hle]
    rfl

namespace Unpacks

section
variable {deliveries : List Delivery} {r q : Nat} {input : Input}
  (h : input.Unpacks deliveries r q)

include h

theorem needsByte_iff : input.needsByte = true ↔ r = 8 * q := by
  have hle := h.read_le
  rw [needsByte, h.bits_eq, List.isEmpty_iff, List.map_eq_nil_iff, List.range'_eq_nil_iff]
  omega

theorem tail (hr : r < 8 * q) : input.bits.headD false = Byte.bitAt (byteAt deliveries) r ∧
    Unpacks deliveries (r + 1) q { input with bits := input.bits.tail } := by
  obtain ⟨n, hn⟩ : ∃ n, 8 * q - r = n + 1 := ⟨8 * q - r - 1, by omega⟩
  have hbits := h.bits_eq
  rw [hn, List.range'_succ, List.map_cons] at hbits
  refine ⟨by rw [hbits]; rfl, hr, h.deliveries_eq, ?_, h.bytesRead_eq⟩
  rw [hbits, show 8 * q - (r + 1) = n by omega]
  rfl

theorem request (hd : PlainBytes deliveries) (hr : r = 8 * q) : ∃ ready,
    request input.bytesRead input.deliveries = .ok ready ∧
      ready.Unpacks deliveries r (q + 1) := by
  rw [h.deliveries_eq, request_drop hd]
  refine ⟨_, rfl, by omega, rfl, ?_, ?_⟩
  · rw [Byte.toBits_eq_map_bitAt, hr, Nat.mul_succ, Nat.add_sub_cancel_left]
  · rw [h.bytesRead_eq, List.take_add_one, List.filterMap_append, List.length_append]
    cases deliveries[q]? with
    | none => rfl
    | some d => cases d <;> rfl

theorem readBit (hd : PlainBytes deliveries) : ∃ rest,
    input.readBit = .ok (Byte.bitAt (byteAt deliveries) r, rest) ∧
      rest.Unpacks deliveries (r + 1) (q + if input.needsByte then 1 else 0) := by
  by_cases hn : input.needsByte = true
  · have hr : r = 8 * q := h.needsByte_iff.mp hn
    obtain ⟨ready, hready, hunpacks⟩ := h.request hd hr
    obtain ⟨hbit, hrest⟩ := hunpacks.tail (by omega)
    rw [readBit_of_needsByte hn, hready, ← hbit, if_pos hn]
    exact ⟨_, rfl, hrest⟩
  · have hr : r < 8 * q := by
      have hne := mt h.needsByte_iff.mpr hn
      have hle := h.read_le
      omega
    obtain ⟨hbit, hrest⟩ := h.tail hr
    rw [readBit_of_not_needsByte hn, hbit, if_neg hn]
    exact ⟨_, rfl, hrest⟩

end

end Unpacks

end Input

/-! ## Steps -/

def BitOp.written? : BitOp → Option Bool
  | .read => none
  | .write bit => some bit

namespace Machine

structure Packs (deliveries : List Delivery) (ops : List BitOp) (q : Nat) (m : Machine) : Prop where
  untraced : m.settings.trace = false
  output : m.output.Packs (ops.filterMap BitOp.written?)
  input : m.input.Unpacks deliveries (ops.count .read) q
  requested_eq : q = (ops.count .read + 7) / 8
  operations_eq : m.tally.operations = ops.length

section
variable {deliveries : List Delivery} {ops : List BitOp} {q : Nat} {m : Machine}

theorem packs_start (limit : Option Nat) (program : Term) (deliveries : List Delivery) :
    Packs deliveries [] 0
      (start ⟨false, limit⟩ program (.ofDeliveries deliveries) (.limited none none)) where
  untraced := rfl
  output := ⟨⟨rfl, rfl⟩, Nat.zero_lt_succ 7, rfl, rfl⟩
  input := ⟨Nat.le_refl 0, rfl, rfl, rfl⟩
  requested_eq := rfl
  operations_eq := rfl

namespace Packs

variable (h : m.Packs deliveries ops q)

include h

theorem step_of_operation {op : BitOp} (hop : m.operation? = some op) : m.step =
    (m.takeNearest.executed op).map (withSink (m.output.sink.acceptAll (m.executeCalls op))) := by
  have hcalls : m.calls = m.executeCalls op := by
    simp [calls_of_operation hop, announceCalls, h.untraced]
  rw [step_of_takesAll h.output.takesAll, hcalls, settled_of_operation hop]

theorem step_read (hd : PlainBytes deliveries) (hop : m.operation? = some .read) : ∃ m₁,
    m.step = .running m₁ ∧ m₁.focus = m.spine.nearest ∧
      m₁.spine = m.spine.clear.push (.ofBit (Byte.bitAt (byteAt deliveries) (ops.count .read))) ∧
      m₁.Packs deliveries (ops ++ [.read]) (q + if m.requestsByte then 1 else 0) := by
  obtain ⟨rest, hread, hrest⟩ := h.input.readBit hd
  have hcount : (ops ++ [BitOp.read]).count .read = ops.count .read + 1 := by simp
  have hanswer : (m.output.sink.answerAll m.calls).1 = none := by
    rw [h.output.takesAll.answerAll_eq]
  -- a request comes after a flush, which adds no byte
  have houtput : Output.Packs (ops.filterMap BitOp.written?)
      { m.output with sink := m.output.sink.acceptAll (m.executeCalls .read) } := by
    unfold executeCalls
    by_cases hn : m.input.needsByte = true
    · rw [if_pos hn]
      exact h.output.flush
    · rw [if_neg hn]
      exact h.output
  rw [h.step_of_operation hop, executed, show m.takeNearest.input.readBit = _ from hread,
    requestsByte_of_read hop hanswer]
  refine ⟨_, rfl, rfl, rfl, ⟨h.untraced, ?_, ?_, ?_, ?_⟩⟩
  · rw [List.filterMap_append, show [BitOp.read].filterMap BitOp.written? = [] from rfl,
      List.append_nil]
    exact houtput
  · rw [hcount]
    exact hrest
  · have hq := h.requested_eq
    have hle := h.input.read_le
    rw [hcount]
    by_cases hn : m.input.needsByte = true
    · have hr := h.input.needsByte_iff.mp hn
      rw [if_pos hn]
      omega
    · have hr := mt h.input.needsByte_iff.mpr hn
      rw [if_neg hn]
      omega
  · rw [List.length_append]
    exact congrArg (· + 1) h.operations_eq

theorem step_write {bit : Bool} (hop : m.operation? = some (.write bit)) : ∃ m₁,
    m.step = .running m₁ ∧ m₁.Packs deliveries (ops ++ [.write bit]) q := by
  rw [h.step_of_operation hop]
  have hcount : (ops ++ [BitOp.write bit]).count .read = ops.count .read := by simp
  refine ⟨_, rfl, ⟨h.untraced, ?_, ?_, ?_, ?_⟩⟩
  · rw [List.filterMap_append]
    exact h.output.write bit
  · rw [hcount]
    exact h.input
  · rw [hcount]
    exact h.requested_eq
  · rw [List.length_append]
    exact congrArg (· + 1) h.operations_eq

theorem step (hd : PlainBytes deliveries) : m.step.Sat
    (Packs deliveries (ops ++ m.operation?.toList) (q + if m.requestsByte then 1 else 0))
    fun e m' => (∀ cause, e ≠ .failed cause) ∧
      m'.Packs deliveries (ops ++ m.operation?.toList) (q + if m.requestsByte then 1 else 0) := by
  cases hop : m.operation? with
  | some op =>
    cases op with
    | read =>
      obtain ⟨m₁, hstep, -, -, hm₁⟩ := h.step_read hd hop
      rw [hstep]
      exact hm₁
    | write bit =>
      obtain ⟨m₁, hstep, hm₁⟩ := h.step_write hop
      rw [hstep, requestsByte_of_ne_read (by simp [hop])]
      exact hm₁
  | none =>
    have hsettled := settled_of_no_operation hop
    rw [requestsByte_of_ne_read (by simp [hop]), Option.toList_none, List.append_nil,
      step_of_takesAll h.output.takesAll]
    cases hs : m.settled with
    | faulted fault => trivial
    | running m₁ =>
      rw [hs] at hsettled
      obtain ⟨hcalls, focus, spine, placeholders, tally, rfl, hops⟩ := hsettled
      rw [hcalls]
      exact ⟨h.untraced, h.output, h.input, h.requested_eq, hops.trans h.operations_eq⟩
    | ended e m₁ =>
      rw [hs] at hsettled
      obtain ⟨hcalls, hfine, focus, spine, placeholders, tally, rfl, hops⟩ := hsettled
      have hflush : m.calls = [.flush] := by simpa [announceCalls, h.untraced] using hcalls
      rw [hflush]
      exact ⟨hfine, h.untraced, h.output.flush, h.input, h.requested_eq,
        hops.trans h.operations_eq⟩

end Packs

/-! ## Runs -/

theorem Packs.run (hd : PlainBytes deliveries) (h : m.Packs deliveries ops q) (n : Nat) :
    (run n m).Sat (Packs deliveries (ops ++ operations n m) (q + requestCount n m))
      fun e m' => (∀ cause, e ≠ .failed cause) ∧
        m'.Packs deliveries (ops ++ operations n m) (q + requestCount n m) := by
  have hrun := run_sat_trail
    (I := fun ms => Packs deliveries (ops ++ ms.flatMap fun m => m.operation?.toList)
      (q + (ms.flatMap fun m => [m.requestsByte]).count true))
    (E := fun ms e m' => (∀ cause, e ≠ .failed cause) ∧
      m'.Packs deliveries (ops ++ ms.flatMap fun m => m.operation?.toList)
        (q + (ms.flatMap fun m => [m.requestsByte]).count true))
    (fun ms m h => by
      simpa [List.count_append, List.count_singleton, Nat.add_assoc] using h.step hd)
    (by simpa using h) n
  rwa [flatMap_trail, flatMap_trail] at hrun

end

/-- **Bits are packed into whole bytes, the most significant bit first.** Wherever reads and writes
come in a run, each read passes on the next bit of the input and each eight bits written make a
byte of the output; of the input no byte is requested before its first bit is to be read, and of
the output no byte is written before its last. -/
theorem run_packs_whole_bytes (limit : Option Nat) (program : Term) (deliveries : List Delivery)
    (hd : PlainBytes deliveries) (n : Nat) :
    let m := start ⟨false, limit⟩ program (.ofDeliveries deliveries) (.limited none none)
    let ops := operations n m
    let written := ops.filterMap BitOp.written?
    let reads := ops.count .read
    (∀ m₁, run n m = .running m₁ → m₁.operation? = some .read → ∃ m₂, m₁.step = .running m₂ ∧
      m₂.focus = m₁.spine.nearest ∧
      m₂.spine.toList = [.ofBit (Byte.bitAt (byteAt deliveries) reads)]) ∧
    (∀ e m₁, run n m = .ended e m₁ → ∀ cause, e ≠ .failed cause) ∧
    ∀ m₁, (run n m).machine? = some m₁ →
      m₁.tally.operations = ops.length ∧
      m₁.output.sink.bytes.size = written.length / 8 ∧
      (∀ i < 8 * (written.length / 8),
        written[i]? = some (Byte.bitAt (m₁.output.sink.bytes.getD · 0) i)) ∧
      m₁.output.bytesWritten = written.length / 8 ∧
      requestCount n m = (reads + 7) / 8 ∧
      m₁.input.bytesRead =
        ((deliveries.take ((reads + 7) / 8)).filterMap Delivery.byte?).length := by
  intro m ops written reads
  have hrun := (packs_start limit program deliveries).run hd n
  rw [List.nil_append, Nat.zero_add] at hrun
  refine ⟨?_, ?_, ?_⟩
  · intro m₁ hm₁ hop
    rw [hm₁] at hrun
    obtain ⟨m₂, hstep, hfocus, hspine, -⟩ := hrun.step_read hd hop
    obtain ⟨ts, hts⟩ := exists_holds_run hm₁
    refine ⟨m₂, hstep, hfocus, ?_⟩
    rw [hspine, (hts.clear.push _).toList_eq]
    rfl
  · intro e m₁ hm₁
    rw [hm₁] at hrun
    exact hrun.1
  · intro m₁ hm₁
    have hpacks : m₁.Packs deliveries ops (requestCount n m) :=
      hrun.of_machine? (fun _ _ h => h.2) hm₁
    have hq := hpacks.requested_eq
    refine ⟨hpacks.operations_eq, hpacks.output.size_eq, fun i hi => hpacks.output.getElem?_eq hi,
      hpacks.output.bytesWritten_eq.trans hpacks.output.size_eq, hq, ?_⟩
    rw [← hq]
    exact hpacks.input.bytesRead_eq

theorem run_packs_whole_bytes_nine :
    let write bit t := (Term.var 0 (if bit then 0 else 1)).apply t
    let last := (Term.var 0 2).apply (write true (.var 0 3))
    let program := ((Byte.toBits 0xA5).foldr write last).withBinders 4
    let deliveries := [.byte 0x80, .endOfInput]
    let m := start ⟨false, none⟩ program (.ofDeliveries deliveries) (.limited none none)
    PlainBytes deliveries ∧
      (∃ m₁ m₂, run 18 m = .running m₁ ∧ m₁.operation? = some .read ∧ m₁.step = .running m₂ ∧
        m₂.spine.toList = [.ofBit true]) ∧
      ∃ e m₁, run 22 m = .ended e m₁ ∧ (∀ cause, e ≠ .failed cause) ∧ m₁.tally.operations = 10 ∧
        m₁.output.sink.bytes = #[0xA5] ∧ m₁.output.bytesWritten = 1 ∧ m₁.input.bytesRead = 1 := by
  -- nine bits are written, the ninth after a bit has been read, so two bytes are not complete
  intro write last program deliveries m
  have hd : PlainBytes deliveries := by simp [PlainBytes, deliveries]
  have hnone : (operations 18 m).count .read = 0 := by decide +kernel
  have hops : operations 22 m = (Byte.toBits 0xA5).map .write ++ [.read, .write true] := by
    decide +kernel
  have hreads : (run 18 m).machine?.map operation? = some (some .read) := by decide +kernel
  have hbytes : (run 22 m).machine?.map (·.output.sink.bytes) = some #[0xA5] := by decide +kernel
  obtain ⟨m₁, hrunning⟩ : ∃ m₁, run 18 m = .running m₁ :=
    Progress.exists_running (by decide +kernel)
  obtain ⟨e, m', hended⟩ : ∃ e m', run 22 m = .ended e m' :=
    Progress.exists_ended (by decide +kernel) (by decide +kernel)
  obtain ⟨hread, -, -⟩ := run_packs_whole_bytes none program deliveries hd 18
  obtain ⟨-, hfine, hleft⟩ := run_packs_whole_bytes none program deliveries hd 22
  refine ⟨hd, ?_, ?_⟩
  · rw [hrunning] at hreads
    have hop : m₁.operation? = some .read := Option.some.inj hreads
    obtain ⟨m₂, hstep, -, hspine⟩ := hread m₁ hrunning hop
    change _ = [Term.ofBit (Byte.bitAt _ ((operations 18 m).count .read))] at hspine
    have hbit : Byte.bitAt (byteAt deliveries) 0 = true := by decide
    rw [hnone, hbit] at hspine
    exact ⟨m₁, m₂, hrunning, hop, hstep, hspine⟩
  · rw [hended] at hbytes
    obtain ⟨hoperations, -, -, hwritten, -, hbytesRead⟩ := hleft m' (by rw [hended]; rfl)
    change m'.tally.operations = (operations 22 m).length at hoperations
    change m'.output.bytesWritten = ((operations 22 m).filterMap _).length / 8 at hwritten
    change _ = ((deliveries.take (((operations 22 m).count .read + 7) / 8)).filterMap _).length
      at hbytesRead
    rw [hops] at hoperations hwritten hbytesRead
    exact ⟨e, m', hended, hfine e m' hended, hoperations, Option.some.inj hbytes, hwritten,
      hbytesRead⟩

end Machine

end WeakHead
