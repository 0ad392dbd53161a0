import WeakHead.Proofs.SinkCalls

/-!
# Traces

A trace puts a line into the output for each atom that reaches the head, right
before the byte that the atom completes, if it completes one. The lines go
past the bits that are held back, so nothing else about the run changes.
-/

namespace WeakHead

structure Dispatch where
  id : UInt32
  argument : Term
  byte? : Option UInt8
  deriving DecidableEq, Repr

namespace Dispatch

def line (d : Dispatch) : List UInt8 := (Machine.traceLine d.id d.argument).toList

def bytes (trace : Bool) (d : Dispatch) : List UInt8 :=
  (if trace then d.line else []) ++ d.byte?.toList

end Dispatch

def Ending.atHead : Ending → Nat
  | .halted _ _ => 1
  | .stuck _ => 0
  | .outOfSteps => 0
  | .failed _ => 1

namespace Machine

def byteOf? (m : Machine) (id : UInt32) : Option UInt8 :=
  match BitOp.ofAtomId? id with
  | some (.write bit) => m.output.completed? bit
  | some .read => none
  | none => none

def dispatches (m : Machine) : List Dispatch :=
  match m.rule with
  | .dispatch id => [⟨id, m.spine.nearest, m.byteOf? id⟩]
  | _ => []

/-! ## Steps -/

section
variable {m : Machine}

theorem data_announceCalls (m : Machine) (trace : Bool) (id : UInt32) :
    ((m.withTrace trace).announceCalls id).flatMap Sink.Call.data =
      if trace then (traceLine id m.spine.nearest).toList else [] := by
  cases trace with
  | true => exact List.append_nil _
  | false => rfl

theorem data_executeCalls (m : Machine) (id : UInt32) :
    (match BitOp.ofAtomId? id with
      | some op => m.executeCalls op
      | none => [.flush]).flatMap Sink.Call.data = (m.byteOf? id).toList := by
  unfold byteOf?
  cases BitOp.ofAtomId? id with
  | none => rfl
  | some op =>
    cases op with
    | read =>
      unfold executeCalls
      by_cases hn : m.input.needsByte = true
      · simp [hn, Sink.Call.data]
      · simp [hn]
    | write bit =>
      unfold executeCalls
      dsimp only
      cases m.output.completed? bit <;> rfl

theorem data_tracedCalls (m : Machine) (trace : Bool) :
    (m.tracedCalls trace).flatMap Sink.Call.data = m.dispatches.flatMap (Dispatch.bytes trace) := by
  unfold tracedCalls calls dispatches
  rw [show (m.withTrace trace).rule = m.rule from rfl]
  cases m.rule with
  | stop ending => rfl
  | beta => rfl
  | unwind func arg => rfl
  | dispatch id =>
    dsimp only
    rw [List.flatMap_append, data_announceCalls, List.flatMap_singleton, Dispatch.bytes]
    exact congrArg _ (data_executeCalls m id)

theorem atHead_of_stop {e : Ending} (h : m.rule = .stop e) : e.atHead = 0 := by
  rcases ending_of_rule h with rfl | ⟨_, rfl⟩ <;> rfl

theorem settled_counts (m : Machine) : m.settled.Sat
    (fun m' => m'.tally.operations = m.tally.operations + m.dispatches.length)
    fun e m' => m'.tally.operations + e.atHead = m.tally.operations + m.dispatches.length := by
  unfold settled dispatches
  cases hr : m.rule with
  | stop ending => exact congrArg (m.tally.operations + ·) (atHead_of_stop hr)
  | beta =>
    dsimp only
    cases hb : m.beta with
    | error fault => trivial
    | ok m' =>
      obtain ⟨focus, spine, placeholders, rfl⟩ := beta_changes hb
      rfl
  | unwind func arg => rfl
  | dispatch id =>
    dsimp only
    cases BitOp.ofAtomId? id with
    | none => rfl
    | some op =>
      cases op with
      | write bit => rfl
      | read =>
        unfold executed
        dsimp only
        cases m.takeNearest.input.readBit <;> rfl

/-! ## Runs -/

theorem counts_dispatches (h : m.output.sink.TakesAll) (n : Nat) : (run n m).Sat
    (fun m' => m'.tally.operations = m.tally.operations + (history dispatches n m).length)
    fun e m' => m'.tally.operations + e.atHead =
      m.tally.operations + (history dispatches n m).length := by
  induction n generalizing m with
  | zero => rfl
  | succ n ih =>
    have hcounts := m.settled_counts
    rw [run_succ, history, step_of_takesAll h]
    cases hs : m.settled with
    | faulted fault => trivial
    | ended e m₁ =>
      rw [hs] at hcounts
      show _ = m.tally.operations + (m.dispatches ++ []).length
      rw [List.append_nil]
      exact hcounts
    | running m₁ =>
      rw [hs] at hcounts
      have hrest := ih (m := m₁.withSink (m.output.sink.acceptAll m.calls)) (h.acceptAll m.calls)
      have hsum : ∀ log : List Dispatch, m.tally.operations + (m.dispatches ++ log).length =
          m₁.tally.operations + log.length := by
        intro log
        rw [List.length_append, ← Nat.add_assoc]
        exact congrArg (· + log.length) hcounts.symm
      exact hrest.mono (fun _ hm' => hm'.trans (hsum _).symm)
        fun _ _ hm' => hm'.trans (hsum _).symm

end

/-- **A trace only adds lines.** Traced, a run is the same but for its sink, where each atom that
has reached the head has its line before the byte that it completes. -/
theorem trace_only_adds_lines (limit : Option Nat) (program : Term) (deliveries : List Delivery)
    (n : Nat) :
    let m trace := start ⟨trace, limit⟩ program (.ofDeliveries deliveries) (.limited none none)
    let log := history dispatches n (m false)
    (∃ s, run n (m true) = (run n (m false)).map (fun m' => (m'.withTrace true).withSink s) ∧
      s.bytes.toList = log.flatMap fun d => d.line ++ d.byte?.toList) ∧
    (∀ m₁, (run n (m false)).machine? = some m₁ →
      m₁.output.sink.bytes.toList = log.flatMap (·.byte?.toList)) ∧
    ∀ e m₁, run n (m false) = .ended e m₁ → m₁.tally.operations + e.atHead = log.length := by
  intro m log
  have hall : (m false).output.sink.TakesAll := ⟨rfl, rfl⟩
  have hdata : ∀ trace, ((Sink.limited none none).acceptAll
      (history (tracedCalls trace) n (m false))).bytes.toList =
        log.flatMap (Dispatch.bytes trace) := by
    intro trace
    rw [Sink.bytes_acceptAll, flatMap_history, flatMap_history]
    simp only [data_tracedCalls]
    rfl
  refine ⟨⟨_, run_withTrace_of_takesAll hall true hall n, ?_⟩, ?_, ?_⟩
  · exact hdata true
  · intro m₁ hm₁
    rw [sink_run hall n hm₁]
    exact hdata false
  · intro e m₁ hrun
    have hcounts := counts_dispatches hall n
    rw [hrun] at hcounts
    exact hcounts.trans (Nat.zero_add _)

theorem trace_only_adds_lines_byte :
    let write bit t := (Term.var 0 (if bit then 0 else 1)).apply t
    let program := ((Byte.toBits 0xA5).foldr write (.var 0 3)).withBinders 4
    let m trace := start ⟨trace, none⟩ program (.ofDeliveries []) (.limited none none)
    let log := history dispatches 18 (m false)
    ∃ e m₁ s, run 18 (m false) = .ended e m₁ ∧ m₁.output.sink.bytes.toList = [0xA5] ∧
      run 18 (m true) = .ended e ((m₁.withTrace true).withSink s) ∧
      s.bytes.toList = log.flatMap (fun d => d.line ++ d.byte?.toList) ∧
      m₁.tally.operations + e.atHead = 9 := by
  -- eight bits are written, then the program halts: nine lines, and a byte after the eighth
  intro write program m log
  have hended : (match run 18 (m false) with
      | .ended _ _ => true
      | _ => false) = true := by
    decide +kernel
  have hbytes : log.map (·.byte?) = List.replicate 7 none ++ [some 0xA5, none] := by
    decide +kernel
  obtain ⟨⟨s, htraced, hs⟩, hsink, hcounts⟩ := trace_only_adds_lines none program [] 18
  cases hrun : run 18 (m false) with
  | running => rw [hrun] at hended; cases hended
  | faulted => rw [hrun] at hended; cases hended
  | ended e m₁ =>
    refine ⟨e, m₁, s, rfl, ?_, ?_, hs, ?_⟩
    · have hflat := congrArg (List.flatMap Option.toList) hbytes
      rw [List.flatMap_map] at hflat
      exact (hsink m₁ (by rw [hrun]; rfl)).trans hflat
    · rw [htraced, hrun]
      rfl
    · have hlength := congrArg List.length hbytes
      rw [List.length_map] at hlength
      exact (hcounts e m₁ hrun).trans hlength

end Machine

end WeakHead
