import WeakHead.Stream

/-!
# Streams of bits

An input that never fails is one infinite stream of bits, and the output of a
program that nothing else writes to is one list of bits. Neither bytes nor
requests are seen in them.
-/

namespace WeakHead

namespace Byte

theorem toBits_ofBits {bits : List Bool} (h : bits.length = 8) : toBits (ofBits bits) = bits := by
  have hall : ∀ a b c d e f g h : Bool,
      toBits (ofBits [a, b, c, d, e, f, g, h]) = [a, b, c, d, e, f, g, h] := by decide
  match bits, h with
  | [a, b, c, d, e, f, g, h], _ => exact hall a b c d e f g h

theorem toBits_zero : toBits 0 = List.replicate 8 false := rfl

end Byte

/-! ## Input -/

def Delivery.bits : Delivery → List Bool
  | .byte value => Byte.toBits value
  | .endOfInput => Byte.toBits 0
  | .interrupted => []
  | .failure _ => []

namespace Input

def NeverFails (input : Input) : Prop := ∀ reason, .failure reason ∉ input.deliveries

/-- The bits to come, zeros for ever at the end. -/
def upcoming (input : Input) (i : Nat) : Bool :=
  (input.bits ++ input.deliveries.flatMap Delivery.bits).getD i false

theorem request_of_neverFails (n : Nat) : ∀ deliveries : List Delivery,
    (∀ reason, .failure reason ∉ deliveries) → ∃ input, request n deliveries = .ok input ∧
      input.bits ≠ [] ∧ input.NeverFails ∧
      ∀ i, input.upcoming i = (deliveries.flatMap Delivery.bits).getD i false
  | [], _ => by
    refine ⟨_, rfl, by simp [Byte.toBits_zero], fun reason => by simp, fun i => ?_⟩
    show (Byte.toBits 0 ++ []).getD i false = _
    rw [List.append_nil, Byte.toBits_zero, List.getD_eq_getElem?_getD, List.getElem?_replicate]
    split <;> rfl
  | .byte value :: rest, h =>
    ⟨_, rfl, by simp [Byte.toBits], fun reason hr => h reason (List.mem_cons_of_mem _ hr),
      fun _ => rfl⟩
  | .endOfInput :: rest, h =>
    ⟨_, rfl, by simp [Byte.toBits_zero], fun reason hr => h reason (List.mem_cons_of_mem _ hr),
      fun _ => rfl⟩
  | .interrupted :: rest, h =>
    request_of_neverFails n rest fun reason hr => h reason (List.mem_cons_of_mem _ hr)
  | .failure reason :: _, h => absurd List.mem_cons_self (h reason)

theorem readBit_of_neverFails {input : Input} (h : input.NeverFails) :
    ∃ rest, input.readBit = .ok (input.upcoming 0, rest) ∧ rest.NeverFails ∧
      ∀ i, rest.upcoming i = input.upcoming (i + 1) := by
  have hready : ∃ ready : Input, input.readBit =
        .ok (ready.bits.headD false, { ready with bits := ready.bits.tail }) ∧
      ready.bits ≠ [] ∧ ready.NeverFails ∧ ∀ i, ready.upcoming i = input.upcoming i := by
    unfold readBit
    by_cases hn : input.needsByte = true
    · obtain ⟨ready, hr, hb, hf, hu⟩ := request_of_neverFails input.bytesRead _ h
      refine ⟨ready, by rw [if_pos hn, hr]; rfl, hb, hf, fun i => ?_⟩
      rw [hu, upcoming, List.isEmpty_iff.mp hn, List.nil_append]
    · exact ⟨input, by rw [if_neg hn]; rfl, fun e => hn (List.isEmpty_iff.mpr e), h, fun _ => rfl⟩
  obtain ⟨ready, hr, hb, hf, hu⟩ := hready
  obtain ⟨bit, bits, hbits⟩ := List.exists_cons_of_ne_nil hb
  refine ⟨{ ready with bits := ready.bits.tail }, ?_, hf, fun i => ?_⟩
  · rw [hr, ← hu, upcoming, hbits]
    rfl
  · rw [← hu, upcoming, upcoming, hbits]
    rfl

end Input

/-! ## Output -/

namespace Output

def written (output : Output) : List Bool :=
  output.sink.bytes.toList.flatMap Byte.toBits ++ output.bits

structure Unlimited (output : Output) : Prop where
  byteLimit : output.sink.byteLimit = none
  flushLimit : output.sink.flushLimit = none
  length_bits : output.bits.length < 8

theorem unlimited_ofSink : (ofSink (.limited none none)).Unlimited := ⟨rfl, rfl, by decide⟩

section
variable {output : Output}

theorem writeBit_of_unlimited (h : output.Unlimited) (bit : Bool) :
    ∃ output', output.writeBit bit = (true, output') ∧ output'.Unlimited ∧
      output'.written = output.written ++ [bit] := by
  have hlen : (output.bits ++ [bit]).length = output.bits.length + 1 := List.length_append
  unfold writeBit
  by_cases hl : (output.bits ++ [bit]).length < 8
  · exact ⟨{ output with bits := output.bits ++ [bit] }, if_pos hl,
      ⟨h.byteLimit, h.flushLimit, hl⟩, (List.append_assoc ..).symm⟩
  · -- the bit completes a byte, which goes to the sink
    have hw := h.length_bits
    let byte := Byte.ofBits (output.bits ++ [bit])
    have hsink : output.sink.write #[byte] =
        (true, { output.sink with bytes := output.sink.bytes ++ #[byte] }) := by
      simp [Sink.write, Sink.room, h.byteLimit]
    have hbyte : Byte.toBits byte = output.bits ++ [bit] := Byte.toBits_ofBits (by omega)
    refine ⟨⟨{ output.sink with bytes := output.sink.bytes ++ #[byte] }, [],
      output.bytesWritten + 1⟩, ?_, ⟨h.byteLimit, h.flushLimit, Nat.zero_lt_succ 7⟩, ?_⟩
    · rw [if_neg hl, hsink]
      rfl
    · simp [written, hbyte]

theorem flush_of_unlimited (h : output.Unlimited) :
    ∃ sink, output.sink.flush = (true, sink) ∧ Unlimited { output with sink := sink } ∧
      written { output with sink := sink } = output.written := by
  refine ⟨{ output.sink with flushes := output.sink.flushes.push output.sink.bytes.size }, ?_,
    ⟨h.byteLimit, h.flushLimit, h.length_bits⟩, rfl⟩
  simp [Sink.flush, h.flushLimit]

end

end Output

end WeakHead
