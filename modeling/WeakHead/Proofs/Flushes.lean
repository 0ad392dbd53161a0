import WeakHead.Proofs.BitStreams
import WeakHead.Proofs.Requests
import WeakHead.Proofs.Tracing

/-!
# When the output is flushed

The output is flushed right before a byte is requested and when the run ends,
and at no other time. A byte is requested with the first of each eight bits
that are read, so the flushes tell how much had been written before those
reads.
-/

namespace WeakHead

/-! ## Flushes of a sink -/

namespace Sink

/-- Of the sizes `marks`, each eighth from the first on has been flushed, and nothing else. -/
structure Marked (marks : List Nat) (s : Sink) : Prop where
  takesAll : s.TakesAll
  getElem?_flushes : ∀ i < s.flushes.size, s.flushes[i]? = marks[8 * i]?
  nondecreasing : (s.flushes.toList ++ [s.bytes.size]).Pairwise (· ≤ ·)

section
variable {marks : List Nat} {s : Sink} (h : s.Marked marks)

include h

theorem Marked.write (data : Array UInt8) : (s.accept (.write data)).Marked marks := by
  refine ⟨h.takesAll.accept _, h.getElem?_flushes, ?_⟩
  obtain ⟨hsorted, -, hle⟩ := List.pairwise_append.mp h.nondecreasing
  refine List.pairwise_append.mpr ⟨hsorted, List.pairwise_singleton _ _, ?_⟩
  intro k hk size hsize
  rw [List.mem_singleton.mp hsize]
  calc k ≤ s.bytes.size := hle k hk _ List.mem_cons_self
    _ ≤ (s.bytes ++ data).size := by simp

theorem Marked.writes {cs : List Call} (hcs : .flush ∉ cs) : (s.acceptAll cs).Marked marks := by
  induction cs generalizing s with
  | nil => exact h
  | cons c cs ih =>
    cases c with
    | write data => exact ih (h.write data) fun hc => hcs (List.mem_cons_of_mem _ hc)
    | flush => exact absurd List.mem_cons_self hcs

theorem Marked.mark (size : Nat) : s.Marked (marks ++ [size]) := by
  refine ⟨h.takesAll, fun i hi => ?_, h.nondecreasing⟩
  have hold := h.getElem?_flushes i hi
  have hlt : 8 * i < marks.length := by
    rw [Array.getElem?_eq_getElem hi] at hold
    exact (List.getElem?_eq_some_iff.mp hold.symm).1
  rw [hold, List.getElem?_append_left hlt]

theorem Marked.flush (hlength : marks.length = 8 * s.flushes.size) :
    (s.accept .flush).Marked (marks ++ [s.bytes.size]) := by
  have hmarked := h.mark s.bytes.size
  refine ⟨h.takesAll.accept _, ?_, ?_⟩
  · intro i hi
    have hsize : (s.accept .flush).flushes.size = s.flushes.size + 1 := Array.size_push _
    show (s.flushes.push s.bytes.size)[i]? = _
    rcases Nat.lt_succ_iff_lt_or_eq.mp (hsize ▸ hi) with hlt | rfl
    · rw [Array.getElem?_push_lt hlt, ← hmarked.getElem?_flushes i hlt,
        Array.getElem?_eq_getElem hlt]
    · rw [Array.getElem?_push_size, ← hlength, List.getElem?_concat_length]
  · show ((s.flushes.push s.bytes.size).toList ++ [s.bytes.size]).Pairwise (· ≤ ·)
    rw [Array.toList_push]
    refine List.pairwise_append.mpr ⟨h.nondecreasing, List.pairwise_singleton _ _, ?_⟩
    intro k hk size hsize
    rw [List.mem_singleton.mp hsize]
    rcases List.mem_append.mp hk with hk | hk
    · exact (List.pairwise_append.mp h.nondecreasing).2.2 k hk _ List.mem_cons_self
    · exact Nat.le_of_eq (List.mem_singleton.mp hk)

end

theorem flushes_acceptAll_of_not_mem {s : Sink} {cs : List Call} (hcs : .flush ∉ cs) :
    (s.acceptAll cs).flushes = s.flushes := by
  induction cs generalizing s with
  | nil => rfl
  | cons c cs ih =>
    cases c with
    | write data =>
      exact ih (s := s.accept (.write data)) fun hc => hcs (List.mem_cons_of_mem _ hc)
    | flush => exact absurd List.mem_cons_self hcs

end Sink

/-! ## Bits that are left -/

namespace Input

theorem length_bits_of_request {n : Nat} {input : Input} : ∀ deliveries : List Delivery,
    request n deliveries = .ok input → input.bits.length = 8
  | [], h => by cases h; rfl
  | .byte _ :: _, h => by cases h; rfl
  | .endOfInput :: _, h => by cases h; rfl
  | .interrupted :: rest, h => length_bits_of_request rest h
  | .failure _ :: _, h => by cases h

theorem length_bits_of_readBit {input rest : Input} {bit : Bool}
    (h : input.readBit = .ok (bit, rest)) :
    rest.bits.length + 1 = if input.needsByte then 8 else input.bits.length := by
  by_cases hn : input.needsByte = true
  · rw [readBit_of_needsByte hn] at h
    cases hr : request input.bytesRead input.deliveries with
    | error reason => rw [hr] at h; cases h
    | ok ready =>
      rw [hr] at h
      cases h
      have hlength := length_bits_of_request _ hr
      simp [hn, hlength]
  · rw [readBit_of_not_needsByte hn] at h
    cases h
    have hpos : 0 < input.bits.length :=
      List.length_pos_iff.mpr fun e => hn (List.isEmpty_iff.mpr e)
    rw [if_neg hn, List.length_tail]
    omega

end Input

/-! ## Steps -/

namespace Machine

def lineOf (m : Machine) (id : UInt32) : Array UInt8 :=
  if m.settings.trace then traceLine id m.spine.nearest else #[]

/-- How much has been written when the next step reads its bit, if it reads. -/
def readMark (m : Machine) : List Nat :=
  if m.operation? = some .read then
    [m.output.sink.bytes.size + (m.lineOf BitOp.read.atomId).size]
  else []

def readMarks (n : Nat) (m : Machine) : List Nat := history readMark n m

section
variable {m : Machine}

theorem acceptAll_announceCalls (m : Machine) (id : UInt32) (s : Sink) :
    s.acceptAll (m.announceCalls id) = s.accept (.write (m.lineOf id)) := by
  unfold announceCalls lineOf
  by_cases ht : m.settings.trace = true
  · rw [if_pos ht, if_pos ht]
    rfl
  · rw [if_neg ht, if_neg ht]
    simp [Sink.acceptAll, Sink.accept]

theorem sink_of_read (hall : m.output.sink.TakesAll) (hop : m.operation? = some .read) :
    let s := m.output.sink.accept (.write (m.lineOf BitOp.read.atomId))
    m.output.sink.acceptAll m.calls = if m.requestsByte then s.accept .flush else s := by
  intro s
  have hanswer : (m.output.sink.answerAll m.calls).1 = none := by rw [hall.answerAll_eq]
  have hline : m.output.sink.acceptAll (m.announceCalls BitOp.read.atomId) = s :=
    acceptAll_announceCalls m _ _
  rw [calls_of_operation hop, requestsByte_of_read hop hanswer, Sink.acceptAll,
    List.foldl_append]
  rw [Sink.acceptAll] at hline
  rw [hline, executeCalls]
  split <;> rfl

theorem flush_not_mem_calls_of_write {bit : Bool} (hop : m.operation? = some (.write bit)) :
    .flush ∉ m.calls := by
  rw [calls_of_operation hop, List.mem_append, not_or]
  refine ⟨flush_not_mem_announceCalls m _, ?_⟩
  rw [executeCalls]
  simp

/-! ## What the flushes tell -/

structure Marked (ops : List BitOp) (marks : List Nat) (m : Machine) : Prop where
  sink : m.output.sink.Marked marks
  neverFails : m.input.NeverFails
  length_bits : m.input.bits.length < 8
  requests_eq : m.input.bits.length + marks.length = 8 * m.output.sink.flushes.size
  reads_eq : marks.length = ops.count .read
  operations_eq : m.tally.operations = ops.length

def Drained (ops : List BitOp) (marks : List Nat) (m : Machine) : Prop :=
  ∃ s, (m.withSink s).Marked ops marks ∧ m.output.sink = s.accept .flush

theorem marked_start (trace : Bool) (limit : Option Nat) (program : Term)
    {deliveries : List Delivery} (hd : ∀ reason, .failure reason ∉ deliveries) :
    (start ⟨trace, limit⟩ program (.ofDeliveries deliveries) (.limited none none)).Marked [] [] where
  sink := ⟨⟨rfl, rfl⟩, nofun, List.pairwise_singleton _ _⟩
  neverFails := hd
  length_bits := Nat.zero_lt_succ 7
  requests_eq := rfl
  reads_eq := rfl
  operations_eq := rfl

section
variable {ops : List BitOp} {marks : List Nat} (h : m.Marked ops marks)

include h

theorem Marked.step_read (hop : m.operation? = some .read) : ∃ m₁,
    m.step = .running m₁ ∧ m₁.Marked (ops ++ [.read]) (marks ++ m.readMark) := by
  obtain ⟨rest, hread, hrest, -⟩ := Input.readBit_of_neverFails h.neverFails
  have hlength := Input.length_bits_of_readBit hread
  have hsink := sink_of_read h.sink.takesAll hop
  have hneeds : m.requestsByte = m.input.needsByte :=
    requestsByte_of_read hop (by rw [h.sink.takesAll.answerAll_eq])
  have hline := h.sink.write (m.lineOf BitOp.read.atomId)
  have hsize : (m.output.sink.accept (.write (m.lineOf BitOp.read.atomId))).bytes.size =
      m.output.sink.bytes.size + (m.lineOf BitOp.read.atomId).size := Array.size_append
  have hrequests := h.requests_eq
  have hbits := h.length_bits
  rw [step_of_takesAll h.sink.takesAll, settled_of_operation hop, executed,
    show m.takeNearest.input.readBit = _ from hread, readMark, if_pos hop, ← hsize, hsink]
  have hreads : (marks ++ [(m.output.sink.accept
      (.write (m.lineOf BitOp.read.atomId))).bytes.size]).length =
        (ops ++ [BitOp.read]).count .read := by
    simp [h.reads_eq]
  have hops : m.tally.operations + 1 = (ops ++ [BitOp.read]).length := by
    simp [h.operations_eq]
  refine ⟨_, rfl, ?_⟩
  by_cases hn : m.input.needsByte = true
  · have hnone : m.input.bits.length = 0 := List.length_eq_zero_iff.mpr (List.isEmpty_iff.mp hn)
    rw [if_pos hn] at hlength
    rw [hneeds, if_pos hn]
    refine ⟨hline.flush ?_, hrest, ?_, ?_, hreads, hops⟩
    · show marks.length = 8 * m.output.sink.flushes.size
      omega
    · show rest.bits.length < 8
      omega
    · show rest.bits.length + (marks ++ [_]).length = 8 * (m.output.sink.flushes.push _).size
      rw [List.length_append, List.length_singleton, Array.size_push]
      omega
  · rw [if_neg hn] at hlength
    rw [hneeds, if_neg hn]
    refine ⟨hline.mark _, hrest, ?_, ?_, hreads, hops⟩
    · show rest.bits.length < 8
      omega
    · show rest.bits.length + (marks ++ [_]).length = 8 * m.output.sink.flushes.size
      rw [List.length_append, List.length_singleton]
      omega

theorem Marked.step_write {bit : Bool} (hop : m.operation? = some (.write bit)) : ∃ m₁,
    m.step = .running m₁ ∧ m₁.Marked (ops ++ [.write bit]) marks := by
  have hflush := flush_not_mem_calls_of_write hop
  rw [step_of_takesAll h.sink.takesAll, settled_of_operation hop]
  refine ⟨_, rfl, h.sink.writes hflush, h.neverFails, h.length_bits, ?_, ?_, ?_⟩
  · show _ = 8 * (m.output.sink.acceptAll m.calls).flushes.size
    rw [Sink.flushes_acceptAll_of_not_mem hflush]
    exact h.requests_eq
  · simp [h.reads_eq]
  · rw [List.length_append]
    exact congrArg (· + 1) h.operations_eq

theorem Marked.step : m.step.Sat
    (Marked (ops ++ m.operation?.toList) (marks ++ m.readMark))
    fun e m' => (∀ cause, e ≠ .failed cause) ∧
      m'.Drained (ops ++ m.operation?.toList) (marks ++ m.readMark) := by
  cases hop : m.operation? with
  | some op =>
    cases op with
    | read =>
      obtain ⟨m₁, hstep, hm₁⟩ := h.step_read hop
      rw [hstep]
      exact hm₁
    | write bit =>
      obtain ⟨m₁, hstep, hm₁⟩ := h.step_write hop
      rw [hstep, readMark, if_neg (by simp [hop]), List.append_nil]
      exact hm₁
  | none =>
    have hsettled := settled_of_no_operation hop
    rw [readMark, if_neg (by simp [hop]), Option.toList_none, List.append_nil, List.append_nil,
      step_of_takesAll h.sink.takesAll]
    cases hs : m.settled with
    | faulted fault => trivial
    | running m₁ =>
      rw [hs] at hsettled
      obtain ⟨hcalls, focus, spine, placeholders, tally, rfl, hops⟩ := hsettled
      rw [hcalls]
      exact ⟨h.sink, h.neverFails, h.length_bits, h.requests_eq, h.reads_eq,
        hops.trans h.operations_eq⟩
    | ended e m₁ =>
      rw [hs] at hsettled
      obtain ⟨hcalls, hfine, focus, spine, placeholders, tally, rfl, hops⟩ := hsettled
      obtain ⟨cs, hcalls, hcs⟩ : ∃ cs, m.calls = cs ++ [.flush] ∧ .flush ∉ cs := by
        rcases hcalls with hcalls | ⟨id, hcalls⟩
        · exact ⟨[], hcalls, List.not_mem_nil⟩
        · exact ⟨_, hcalls, flush_not_mem_announceCalls m id⟩
      refine ⟨hfine, m.output.sink.acceptAll cs, ⟨h.sink.writes hcs, h.neverFails, h.length_bits,
        ?_, h.reads_eq, hops.trans h.operations_eq⟩, ?_⟩
      · show m.input.bits.length + _ = 8 * (m.output.sink.acceptAll cs).flushes.size
        rw [Sink.flushes_acceptAll_of_not_mem hcs]
        exact h.requests_eq
      · show m.output.sink.acceptAll m.calls = _
        rw [hcalls, Sink.acceptAll, List.foldl_append]
        rfl

/-! ## Runs -/

theorem Marked.run (n : Nat) : (run n m).Sat
    (Marked (ops ++ operations n m) (marks ++ readMarks n m))
    fun e m' => (∀ cause, e ≠ .failed cause) ∧
      m'.Drained (ops ++ operations n m) (marks ++ readMarks n m) := by
  have hrun := run_sat_trail
    (I := fun ms => Marked (ops ++ ms.flatMap fun m => m.operation?.toList)
      (marks ++ ms.flatMap readMark))
    (E := fun ms e m' => (∀ cause, e ≠ .failed cause) ∧
      m'.Drained (ops ++ ms.flatMap fun m => m.operation?.toList) (marks ++ ms.flatMap readMark))
    (fun ms m h => by simpa using h.step) (by simpa using h) n
  rwa [flatMap_trail, flatMap_trail] at hrun

end

theorem flushes_of_step (hall : m.output.sink.TakesAll) {m₁ : Machine} (hs : m.step = .running m₁) :
    m₁.output.sink.flushes = if m.requestsByte
      then m.output.sink.flushes.push m₁.output.sink.bytes.size else m.output.sink.flushes := by
  have hsettled := settled_of_no_operation (m := m)
  rw [step_of_takesAll hall] at hs
  cases hp : m.settled with
  | ended e m' => rw [hp] at hs; cases hs
  | faulted fault => rw [hp] at hs; cases hs
  | running m' =>
    rw [hp] at hs hsettled
    cases hs
    show (m.output.sink.acceptAll m.calls).flushes = _
    cases hop : m.operation? with
    | none =>
      rw [requestsByte_of_ne_read (by simp [hop]), (hsettled hop).1]
      rfl
    | some op =>
      cases op with
      | write bit =>
        rw [requestsByte_of_ne_read (by simp [hop])]
        exact Sink.flushes_acceptAll_of_not_mem (flush_not_mem_calls_of_write hop)
      | read =>
        show _ = if m.requestsByte
          then m.output.sink.flushes.push (m.output.sink.acceptAll m.calls).bytes.size else _
        rw [sink_of_read hall hop]
        split <;> rfl

end

/-- **The output is flushed before each request and at the end.** No byte is requested before all
that has been written is flushed, and that is with the first of each eight reads. The last flush
comes with the end of the run, however it ends, and there are no others. -/
theorem flushes_before_requests (trace : Bool) (limit : Option Nat) (program : Term)
    (deliveries : List Delivery) (hd : ∀ reason, .failure reason ∉ deliveries) (n : Nat) :
    let m := start ⟨trace, limit⟩ program (.ofDeliveries deliveries) (.limited none none)
    let marks := readMarks n m
    let reads := (operations n m).count .read
    (∀ m₁ m₂, run n m = .running m₁ → m₁.step = .running m₂ →
      m₂.output.sink.flushes = if m₁.requestsByte
        then m₁.output.sink.flushes.push m₂.output.sink.bytes.size
        else m₁.output.sink.flushes) ∧
    ∀ e m₁, run n m = .ended e m₁ →
      let flushes := m₁.output.sink.flushes
      (∀ cause, e ≠ .failed cause) ∧
      m₁.tally.operations = (operations n m).length ∧
      marks.length = reads ∧
      flushes.size = (reads + 7) / 8 + 1 ∧
      flushes.toList.Pairwise (· ≤ ·) ∧
      (∀ i < (reads + 7) / 8, flushes[i]? = marks[8 * i]?) ∧
      flushes.back? = some m₁.output.sink.bytes.size := by
  intro m marks reads
  have hrun := (marked_start trace limit program hd).run n
  rw [List.nil_append, List.nil_append] at hrun
  constructor
  · intro m₁ m₂ hm₁ hstep
    rw [hm₁] at hrun
    exact flushes_of_step hrun.sink.takesAll hstep
  · intro e m₁ hm₁
    rw [hm₁] at hrun
    obtain ⟨hfine, s, hmarked, hsink⟩ := hrun
    have hbits : m₁.input.bits.length < 8 := hmarked.length_bits
    have hrequests : m₁.input.bits.length + marks.length = 8 * s.flushes.size :=
      hmarked.requests_eq
    have hreads : marks.length = reads := hmarked.reads_eq
    have hsize : s.flushes.size = (reads + 7) / 8 := by omega
    refine ⟨hfine, hmarked.operations_eq, hreads, ?_⟩
    rw [hsink, ← hsize]
    refine ⟨Array.size_push _, ?_, fun i hi => ?_, Array.back?_push⟩
    · show (s.flushes.push s.bytes.size).toList.Pairwise (· ≤ ·)
      rw [Array.toList_push]
      exact hmarked.sink.nondecreasing
    · rw [← hmarked.sink.getElem?_flushes i hi]
      exact (Array.getElem?_push_lt hi).trans (Array.getElem?_eq_getElem hi).symm

theorem flushes_before_requests_nine :
    let write t := (Term.atom 0 3).apply t
    let read t := (Term.atom 0 1).apply (Term.withBinders 1 t)
    let program := read (Nat.repeat write 8 (Nat.repeat read 8 .nil))
    let deliveries := [.byte 0xA5, .interrupted, .endOfInput]
    let m := start ⟨false, none⟩ program (.ofDeliveries deliveries) (.limited none none)
    (∀ reason, .failure reason ∉ deliveries) ∧
      (∃ m₁ m₂, run 41 m = .running m₁ ∧ m₁.step = .running m₂ ∧
        m₂.output.sink.flushes = m₁.output.sink.flushes.push m₂.output.sink.bytes.size) ∧
      readMarks 44 m = 0 :: List.replicate 8 1 ∧
      ∃ e m₁, run 44 m = .ended e m₁ ∧ (∀ cause, e ≠ .failed cause) ∧
        m₁.output.sink.flushes.size = 3 ∧ m₁.output.sink.flushes[0]? = some 0 ∧
        m₁.output.sink.flushes[1]? = some 1 ∧
        m₁.output.sink.flushes.back? = some m₁.output.sink.bytes.size := by
  -- a bit is read, a byte written and eight more bits read, the last of them from a second request
  intro write read program deliveries m
  have hd : ∀ reason, .failure reason ∉ deliveries := by simp [deliveries]
  have hreads : (operations 44 m).count .read = 9 := by decide +kernel
  have hmarks : readMarks 44 m = 0 :: List.replicate 8 1 := by decide +kernel
  have hrequests : (run 41 m).machine?.map requestsByte = some true := by decide +kernel
  obtain ⟨m₁, hm₁⟩ : ∃ m₁, run 41 m = .running m₁ := Progress.exists_running (by decide +kernel)
  obtain ⟨m₂, hm₂⟩ : ∃ m₂, (run 41 m).andThen step = .running m₂ :=
    Progress.exists_running (by decide +kernel)
  obtain ⟨e, m', hended⟩ : ∃ e m', run 44 m = .ended e m' :=
    Progress.exists_ended (by decide +kernel) (by decide +kernel)
  obtain ⟨hstep, -⟩ := flushes_before_requests false none program deliveries hd 41
  obtain ⟨-, hend⟩ := flushes_before_requests false none program deliveries hd 44
  refine ⟨hd, ?_, hmarks, ?_⟩
  · rw [hm₁] at hrequests hm₂
    have hflushes := hstep m₁ m₂ hm₁ hm₂
    rw [if_pos (Option.some.inj hrequests)] at hflushes
    exact ⟨m₁, m₂, hm₁, hm₂, hflushes⟩
  · obtain ⟨hfine, -, -, hsize, -, hflushes, hlast⟩ := hend e m' hended
    change _ = ((operations 44 m).count .read + 7) / 8 + 1 at hsize
    change ∀ i < ((operations 44 m).count .read + 7) / 8, _ = (readMarks 44 m)[8 * i]?
      at hflushes
    rw [hreads] at hsize hflushes
    rw [hmarks] at hflushes
    exact ⟨e, m', hended, hfine, hsize, hflushes 0 (by decide), hflushes 1 (by decide), hlast⟩

end Machine

end WeakHead
