import WeakHead.Proofs.SinkCalls

/-!
# Sinks that fail

A sink that takes no more than some bytes or some flushes answers as one that
takes everything, up to the call that it refuses. There the run ends, so what
it leaves is a part of what it would have written and flushed.
-/

namespace WeakHead

namespace Sink

/-! ## Calls that are accepted -/

def withLimits (byteLimit flushLimit : Option Nat) (s : Sink) : Sink :=
  { s with byteLimit := byteLimit, flushLimit := flushLimit }

section
variable {s : Sink} {w f : Nat}

theorem acceptAll_withLimits (byteLimit flushLimit : Option Nat) (s : Sink) (cs : List Call) :
    (s.withLimits byteLimit flushLimit).acceptAll cs =
      (s.acceptAll cs).withLimits byteLimit flushLimit := by
  induction cs generalizing s with
  | nil => rfl
  | cons c cs ih =>
    cases c with
    | write data => exact ih (s.accept (.write data))
    | flush => exact ih (s.accept .flush)

theorem exists_bytes_acceptAll (s : Sink) (cs : List Call) :
    ∃ more, (s.acceptAll cs).bytes = s.bytes ++ more :=
  ⟨(cs.flatMap Call.data).toArray, Array.toList_inj.mp (by simp [bytes_acceptAll])⟩

theorem flushes_acceptAll (s : Sink) (cs : List Call) :
    ∃ later, (s.acceptAll cs).flushes = s.flushes ++ later ∧ ∀ k ∈ later, s.bytes.size ≤ k := by
  induction cs generalizing s with
  | nil => exact ⟨#[], by simp [acceptAll]⟩
  | cons c cs ih =>
    obtain ⟨later, heq, hle⟩ := ih (s.accept c)
    cases c with
    | write data =>
      refine ⟨later, heq, fun k hk => ?_⟩
      have := hle k hk
      simp only [accept, Array.size_append] at this
      omega
    | flush =>
      refine ⟨#[s.bytes.size] ++ later, by simpa [acceptAll, accept] using heq, fun k hk => ?_⟩
      rcases Array.mem_append.mp hk with hk | hk
      · exact Nat.le_of_eq (Array.mem_singleton.mp hk).symm
      · exact hle k hk

/-! ## The first refusal -/

theorem answer_write_of_le (hw : s.byteLimit = some w) {data : Array UInt8}
    (h : s.bytes.size + data.size ≤ w) :
    s.answer (.write data) = (true, s.accept (.write data)) := by
  have htaken : min data.size (w - s.bytes.size) = data.size := by omega
  simp [answer, accept, write, room, hw, htaken]

theorem answer_write_of_lt (hw : s.byteLimit = some w) {data : Array UInt8}
    (hsize : s.bytes.size ≤ w) (h : w < s.bytes.size + data.size) : s.answer (.write data) =
      (false, { s with bytes := s.bytes ++ data.extract 0 (w - s.bytes.size) }) := by
  have hmin : min data.size (w - s.bytes.size) = w - s.bytes.size := by omega
  have htaken : w - s.bytes.size ≠ data.size := by omega
  simp [answer, write, room, hw, hmin, htaken]

/-- What a sink has at a write that exceeds `w` bytes, with as much of it as fits, is the part up
to there of all that is ever written and flushed. -/
theorem cut_at_write {data : Array UInt8} (hsize : s.bytes.size ≤ w)
    (hflushes : ∀ k ∈ s.flushes, k ≤ w) (h : w < s.bytes.size + data.size) (cs : List Call) :
    let whole := (s.accept (.write data)).acceptAll cs
    w < whole.bytes.size ∧
      s.bytes ++ data.extract 0 (w - s.bytes.size) = whole.bytes.take w ∧
      s.flushes = whole.flushes.filter (· ≤ w) := by
  intro whole
  obtain ⟨more, hmore⟩ := exists_bytes_acceptAll (s.accept (.write data)) cs
  obtain ⟨later, hlater, hle⟩ := flushes_acceptAll (s.accept (.write data)) cs
  have hbytes : whole.bytes = s.bytes ++ data ++ more := hmore
  have hflushed : whole.flushes = s.flushes ++ later := hlater
  have hsizes : (s.accept (.write data)).bytes.size = s.bytes.size + data.size :=
    Array.size_append
  refine ⟨?_, ?_, ?_⟩
  · rw [hbytes, Array.size_append, Array.size_append]
    omega
  · have hwhole : s.bytes.extract 0 w = s.bytes := Array.extract_eq_self_of_le hsize
    have hzero : w - s.bytes.size - data.size = 0 := by omega
    rw [hbytes]
    simp [Array.take, Array.extract_append, hwhole, hzero]
  · have hearly : s.flushes.filter (· ≤ w) = s.flushes := by simpa using hflushes
    have hlate : later.filter (· ≤ w) = #[] := by
      rw [Array.filter_eq_empty_iff]
      intro k hk
      have := hle k hk
      simp only [decide_eq_true_eq]
      omega
    rw [hflushed, Array.filter_append Array.size_append, hearly, hlate, Array.append_empty]

theorem answerAll_of_byteLimit (hf : s.flushLimit = none) (hw : s.byteLimit = some w)
    (hsize : s.bytes.size ≤ w) (hflushes : ∀ k ∈ s.flushes, k ≤ w) (cs : List Call) :
    ((s.acceptAll cs).bytes.size ≤ w → s.answerAll cs = (none, s.acceptAll cs)) ∧
    (w < (s.acceptAll cs).bytes.size → ∃ s', s.answerAll cs = (some .sinkFull, s') ∧
      s'.bytes = (s.acceptAll cs).bytes.take w ∧
      s'.flushes = (s.acceptAll cs).flushes.filter (· ≤ w)) := by
  induction cs generalizing s with
  | nil => exact ⟨fun _ => rfl, fun h => absurd hsize (Nat.not_le.mpr h)⟩
  | cons c cs ih =>
    cases c with
    | flush =>
      have hanswer : s.answer .flush = (true, s.accept .flush) := by
        simp [answer, accept, flush, hf]
      rw [answerAll, hanswer]
      refine ih (s := s.accept .flush) hf hw hsize ?_
      intro k hk
      rcases Array.mem_push.mp hk with hk | rfl
      · exact hflushes k hk
      · exact hsize
    | write data =>
      by_cases hroom : s.bytes.size + data.size ≤ w
      · rw [answerAll, answer_write_of_le hw hroom]
        refine ih (s := s.accept (.write data)) hf hw ?_ hflushes
        simpa [accept] using hroom
      · have hover : w < s.bytes.size + data.size := Nat.not_le.mp hroom
        obtain ⟨hlt, hbytes, hflushed⟩ := cut_at_write hsize hflushes hover cs
        rw [answerAll, answer_write_of_lt hw hsize hover]
        exact ⟨fun h => absurd h (Nat.not_le.mpr hlt), fun _ => ⟨_, rfl, hbytes, hflushed⟩⟩

theorem cut_at_flush (s : Sink) (cs : List Call) :
    let whole := (s.accept .flush).acceptAll cs
    ∃ h : s.flushes.size < whole.flushes.size,
      s.flushes = whole.flushes.take s.flushes.size ∧
      s.bytes = whole.bytes.take whole.flushes[s.flushes.size] := by
  intro whole
  obtain ⟨more, hmore⟩ := exists_bytes_acceptAll (s.accept .flush) cs
  obtain ⟨later, hlater, -⟩ := flushes_acceptAll (s.accept .flush) cs
  have hbytes : whole.bytes = s.bytes ++ more := hmore
  have hflushed : whole.flushes = s.flushes.push s.bytes.size ++ later := hlater
  have hlt : s.flushes.size < whole.flushes.size := by
    rw [hflushed, Array.size_append, Array.size_push]
    omega
  have hat : whole.flushes[s.flushes.size] = s.bytes.size := by simp [hflushed]
  refine ⟨hlt, ?_, ?_⟩
  · simp [hflushed, Array.take, Array.extract_append]
  · rw [hat, hbytes]
    simp [Array.take, Array.extract_append]

theorem answerAll_of_flushLimit (hw : s.byteLimit = none) (hf : s.flushLimit = some f)
    (hsize : s.flushes.size ≤ f) (cs : List Call) :
    ((s.acceptAll cs).flushes.size ≤ f → s.answerAll cs = (none, s.acceptAll cs)) ∧
    ∀ h : f < (s.acceptAll cs).flushes.size, ∃ s', s.answerAll cs = (some .flushRefused, s') ∧
      s'.flushes = (s.acceptAll cs).flushes.take f ∧
      s'.bytes = (s.acceptAll cs).bytes.take (s.acceptAll cs).flushes[f] := by
  induction cs generalizing s with
  | nil => exact ⟨fun _ => rfl, fun h => absurd hsize (Nat.not_le.mpr h)⟩
  | cons c cs ih =>
    cases c with
    | write data =>
      have hanswer : s.answer (.write data) = (true, s.accept (.write data)) := by
        simp [answer, accept, write, room, hw]
      rw [answerAll, hanswer]
      exact ih (s := s.accept (.write data)) hw hf hsize
    | flush =>
      by_cases hroom : s.flushes.size < f
      · have hanswer : s.answer .flush = (true, s.accept .flush) := by
          simp [answer, accept, flush, hf, hroom]
        rw [answerAll, hanswer]
        refine ih (s := s.accept .flush) hw hf ?_
        simpa [accept] using Nat.succ_le_of_lt hroom
      · have hfull : s.flushes.size = f := Nat.le_antisymm hsize (Nat.not_lt.mp hroom)
        have hanswer : s.answer .flush = (false, s) := by simp [answer, flush, hf, hfull]
        obtain ⟨hlt, hflushed, hbytes⟩ := cut_at_flush s cs
        rw [answerAll, hanswer]
        subst hfull
        exact ⟨fun h => absurd h (Nat.not_le.mpr hlt), fun _ => ⟨s, rfl, hflushed, hbytes⟩⟩

end

end Sink

namespace Machine

/-- **A sink that fails cuts the run at the failing point.** Of the bytes it takes as many as it
can, of the flushes those before the first that it refuses, and nothing happens after that. -/
theorem failing_sink_cuts_run (trace : Bool) (limit : Option Nat) (program : Term)
    (deliveries : List Delivery) (n : Nat) (e : Ending) (m₁ : Machine)
    (hrun : run n (start ⟨trace, limit⟩ program (.ofDeliveries deliveries) (.limited none none)) =
      .ended e m₁) :
    let m sink := start ⟨trace, limit⟩ program (.ofDeliveries deliveries) sink
    let bytes := m₁.output.sink.bytes
    let flushes := m₁.output.sink.flushes
    (∀ w,
      (bytes.size ≤ w → run n (m (.limited (some w) none)) =
        .ended e (m₁.withSink (m₁.output.sink.withLimits (some w) none))) ∧
      (w < bytes.size → ∃ m₂, run n (m (.limited (some w) none)) = .ended (.failed .sinkFull) m₂ ∧
        StreamFailure.sinkFull.message = "I/O error: sink full" ∧
        m₂.output.sink.bytes = bytes.take w ∧
        m₂.output.sink.flushes = flushes.filter (· ≤ w))) ∧
    ∀ f,
      (flushes.size ≤ f → run n (m (.limited none (some f))) =
        .ended e (m₁.withSink (m₁.output.sink.withLimits none (some f)))) ∧
      ∀ h : f < flushes.size,
        ∃ m₂, run n (m (.limited none (some f))) = .ended (.failed .flushRefused) m₂ ∧
          StreamFailure.flushRefused.message = "I/O error: flush failed" ∧
          m₂.output.sink.flushes = flushes.take f ∧
          m₂.output.sink.bytes = bytes.take flushes[f] := by
  intro m bytes flushes
  have hall : (m (.limited none none)).output.sink.TakesAll := ⟨rfl, rfl⟩
  let cs := history (tracedCalls trace) n (m (.limited none none))
  have hsink : m₁.output.sink = (Sink.limited none none).acceptAll cs :=
    sink_run hall n (by rw [hrun]; rfl)
  -- a limited sink is asked the same, up to the first refusal
  have haccept : ∀ byteLimit flushLimit, (Sink.limited byteLimit flushLimit).acceptAll cs =
      m₁.output.sink.withLimits byteLimit flushLimit := by
    intro byteLimit flushLimit
    rw [hsink]
    exact Sink.acceptAll_withLimits byteLimit flushLimit (.limited none none) cs
  have htaken : ∀ s s' : Sink, s.answerAll cs = (none, s') →
      run n (m s) = .ended e (m₁.withSink s') := by
    intro s s' hanswer
    have hsame := run_withSink_of_taken hall hanswer
    rw [hrun] at hsame
    exact hsame
  constructor
  · intro w
    have hbytes := Sink.answerAll_of_byteLimit (s := .limited (some w) none) rfl rfl
      (Nat.zero_le w) (by simp [Sink.limited]) cs
    rw [haccept] at hbytes
    constructor
    · intro hle
      exact htaken _ _ (hbytes.1 hle)
    · intro hlt
      obtain ⟨s', hanswer, hs'⟩ := hbytes.2 hlt
      obtain ⟨m₂, hm₂, rfl⟩ := run_withSink_of_refused hall hanswer
      exact ⟨m₂, hm₂, rfl, hs'⟩
  · intro f
    have hflushes := Sink.answerAll_of_flushLimit (s := .limited none (some f)) rfl rfl
      (Nat.zero_le f) cs
    rw [haccept] at hflushes
    constructor
    · intro hle
      exact htaken _ _ (hflushes.1 hle)
    · intro hlt
      obtain ⟨s', hanswer, hs'⟩ := hflushes.2 hlt
      obtain ⟨m₂, hm₂, rfl⟩ := run_withSink_of_refused hall hanswer
      exact ⟨m₂, hm₂, rfl, hs'⟩

theorem failing_sink_cuts_run_echo :
    let program := ((Term.var 0 2).apply (((((Term.var 0 0).apply (.var 0 1)).apply
      (.var 0 2)).apply (.var 0 4)).withBinders 1)).withBinders 4
    let m sink := start ⟨true, none⟩ program (.ofDeliveries [.byte 0xA5]) sink
    ∃ e m₁, run 10 (m (.limited none none)) = .ended e m₁ ∧ m₁.output.sink.flushes = #[33, 73] ∧
      (∃ m₂, run 10 (m (.limited (some 50) none)) = .ended (.failed .sinkFull) m₂ ∧
        m₂.output.sink.bytes = m₁.output.sink.bytes.take 50 ∧
        m₂.output.sink.flushes = #[33]) ∧
      ∃ m₂, run 10 (m (.limited none (some 0))) = .ended (.failed .flushRefused) m₂ ∧
        m₂.output.sink.flushes = #[] ∧
        m₂.output.sink.bytes = m₁.output.sink.bytes.take 33 := by
  -- the fiftieth byte is in the second of three lines, and the first of two flushes after the first
  intro program m
  have hended : (match run 10 (m (.limited none none)) with
      | .ended _ m₁ => m₁.output.sink.bytes.size == 73 && m₁.output.sink.flushes == #[33, 73]
      | _ => false) = true := by
    decide +kernel
  cases hrun : run 10 (m (.limited none none)) with
  | running => rw [hrun] at hended; cases hended
  | faulted => rw [hrun] at hended; cases hended
  | ended e m₁ =>
    rw [hrun, Bool.and_eq_true, beq_iff_eq, beq_iff_eq] at hended
    obtain ⟨hbytes, hflushes⟩ := hended
    obtain ⟨hbyteLimit, hflushLimit⟩ :=
      failing_sink_cuts_run true none program [.byte 0xA5] 10 e m₁ hrun
    obtain ⟨m₂, hm₂, -, htaken, hflushed⟩ := (hbyteLimit 50).2 (by omega)
    obtain ⟨m₃, hm₃, -, hflushed', htaken'⟩ := (hflushLimit 0).2 (by rw [hflushes]; decide)
    refine ⟨e, m₁, rfl, hflushes, ⟨m₂, hm₂, htaken, ?_⟩, m₃, hm₃, ?_, ?_⟩
    · rw [hflushed, hflushes]
      rfl
    · rw [hflushed', hflushes]
      rfl
    · simpa [hflushes] using htaken'

end Machine

end WeakHead
