import WeakHead.Proofs.BitStreams
import WeakHead.Proofs.CallByName
import WeakHead.Proofs.SealedRun

/-!
# The machine and the textbook machine

A machine that nothing hinders is followed by the textbook machine on the
unfused program: a step for each binder that `beta` consumes, one step for any
other rule. Both halt with the same result after the same bits.
-/

namespace WeakHead

structure Machine.Unhindered (m : Machine) : Prop where
  settings : m.settings = ⟨false, none⟩
  output : m.output.Unlimited
  input : m.input.NeverFails

namespace Machine

section
variable {m : Machine}

theorem flush_of_unlimited (h : m.output.Unlimited) :
    ∃ output, m.flush = .running { m with output := output } ∧ output.Unlimited ∧
      output.written = m.output.written := by
  obtain ⟨sink, hsink, hu, hw⟩ := Output.flush_of_unlimited h
  refine ⟨{ m.output with sink := sink }, ?_, hu, hw⟩
  rw [flush, hsink]
  rfl

theorem write_of_unlimited (h : m.output.Unlimited) (bit : Bool) :
    ∃ output, m.write bit = .running { m with output := output } ∧ output.Unlimited ∧
      output.written = m.output.written ++ [bit] := by
  obtain ⟨output, hwrite, hu, hw⟩ := Output.writeBit_of_unlimited h bit
  refine ⟨output, ?_, hu, hw⟩
  rw [write, hwrite]
  rfl

theorem read_of_unlimited (h : m.output.Unlimited) (hi : m.input.NeverFails) :
    ∃ output rest, m.read = .running { m with
        output := output
        input := rest
        spine := m.spine.push (.ofBit (m.input.upcoming 0)) } ∧
      output.Unlimited ∧ output.written = m.output.written ∧ rest.NeverFails ∧
      ∀ i, rest.upcoming i = m.input.upcoming (i + 1) := by
  obtain ⟨rest, hread, hf, hu⟩ := Input.readBit_of_neverFails hi
  have hready : ∃ output,
      (if m.input.needsByte then m.flush else .running m) = .running { m with output := output } ∧
        output.Unlimited ∧ output.written = m.output.written := by
    by_cases hn : m.input.needsByte = true
    · rw [if_pos hn]
      exact flush_of_unlimited h
    · rw [if_neg hn]
      exact ⟨m.output, rfl, h, rfl⟩
  obtain ⟨output, hr, ho, hw⟩ := hready
  refine ⟨output, rest, ?_, ho, hw, hf, hu⟩
  simp only [read, hr, Progress.andThen, hread]

theorem dispatch_of_unhindered (h : m.Unhindered) (id : UInt32) :
    m.dispatch id = match BitOp.ofAtomId? id with
      | some op => execute { m with focus := m.spine.nearest, spine := m.spine.clear } op
      | none => stop { m with focus := m.spine.nearest, spine := m.spine.clear }
          (.halted id m.spine.nearest) := by
  have hann : ∀ m' : Machine, m'.settings = m.settings → ∀ t, m'.announce id t = .running m' := by
    intro m' hm' t
    rw [announce, hm', h.settings]
    rfl
  show (announce _ _ _).andThen _ = _
  rw [hann { m with focus := m.spine.nearest, spine := m.spine.clear } rfl]
  rfl

end

end Machine

def Placeholders.next? : Placeholders → Option UInt32
  | .numbered next => some next
  | .blank => none

namespace CallByName

structure SameStreams (input : Nat → Bool) (m : Machine) (s : CallByName) : Prop where
  written : m.output.written = s.written
  operations : m.tally.operations = s.written.length + s.bitsRead
  upcoming : ∀ i, m.input.upcoming i = input (s.bitsRead + i)

/-- `s` is the sealed machine `m` with one binder a node. -/
structure Represents (input : Nat → Bool) (m : Machine) (s : CallByName) : Prop
    extends SameStreams input m s where
  unhindered : m.Unhindered
  isSealed : m.Sealed
  focus : s.focus = m.focus.unfuse
  stack : s.stack = (m.spine.toList.map Term.unfuse).reverse
  fresh : s.fresh = m.placeholders.next?

section
variable {input : Nat → Bool} {m m' : Machine} {s : CallByName}

theorem represents_start {program : Term} {deliveries : List Delivery} (hp : program.Sealed)
    (hd : ∀ reason, .failure reason ∉ deliveries) :
    Represents (Input.ofDeliveries deliveries).upcoming
      (.start ⟨false, none⟩ program (.ofDeliveries deliveries) (.limited none none))
      (start program.unfuse) where
  written := rfl
  operations := rfl
  upcoming i := by rw [start, Nat.zero_add]; rfl
  unhindered := ⟨rfl, Output.unlimited_ofSink, hd⟩
  isSealed := Machine.sealed_start hp
  focus := rfl
  stack := by rw [Machine.start, Spine.holds_empty.toList_eq]; rfl
  fresh := rfl

/-! ## Binders -/

theorem unfuse_take_placeholders (p : Placeholders) (n : Nat) :
    (p.take n).1.map Term.unfuse = (placeholders p.next? n).reverse := by
  cases p with
  | blank =>
    have hall : placeholders none n = List.replicate n (.atom 0) := by
      induction n with
      | zero => rfl
      | succ n ih =>
        rw [placeholders, List.replicate_succ, ← ih]
        rfl
    rw [Placeholders.next?, hall, List.reverse_replicate]
    simp [Placeholders.take, Term.nil, Term.unfuse]
  | numbered next =>
    have hall : placeholders (some next) n =
        (List.range n).map fun k => .atom (next + k.toUInt32) := by
      induction n generalizing next with
      | zero => rfl
      | succ n ih =>
        have hshift : ∀ k : Nat, next + 1 + k.toUInt32 = next + (k + 1).toUInt32 := by
          intro k
          rw [UInt32.add_assoc, UInt32.add_comm 1]
          exact congrArg (next + ·) (UInt32.ofNat_add k 1).symm
        rw [placeholders, Option.map_some, ih, List.range_succ_eq_map, List.map_cons, List.map_map]
        simp [placeholder, Function.comp_def, hshift]
    rw [Placeholders.next?, hall]
    simp [Placeholders.take, Term.unfuse]

theorem next?_take_placeholders (p : Placeholders) (n : Nat) :
    (p.take n).2.next? = p.next?.map (· + n.toUInt32) := by
  cases p <;> rfl

theorem unfuse_nearest_filled {ts : List Term} (hs : s.stack = (ts.map Term.unfuse).reverse)
    (hf : s.fresh = m.placeholders.next?) (n : Nat) :
    ((m.filled ts n).drop (ts.length - n)).map Term.unfuse = (s.nextArguments n).reverse := by
  have hlen : s.stack.length = ts.length := by rw [hs, List.length_reverse, List.length_map]
  have hP := Machine.length_take_placeholders m.placeholders (n - ts.length)
  have hdrop : (m.filled ts n).drop (ts.length - n) =
      (m.placeholders.take (n - ts.length)).1 ++ ts.drop (ts.length - n) := by
    rw [Machine.filled, List.drop_append, hP,
      show ts.length - n - (n - ts.length) = ts.length - n by omega]
    rcases Nat.le_total n ts.length with h | h
    · rw [List.eq_nil_of_length_eq_zero (hP.trans (by omega)), List.drop_nil]
    · rw [Nat.sub_eq_zero_of_le h, List.drop_zero]
  rw [hdrop, List.map_append, unfuse_take_placeholders, nextArguments, hlen, hf,
    List.reverse_append, hs, List.take_reverse, List.reverse_reverse, List.length_map,
    List.map_drop]

theorem unfuse_rest_filled {ts : List Term} (hs : s.stack = (ts.map Term.unfuse).reverse)
    (n : Nat) : s.stack.drop n =
      (((m.filled ts n).take (ts.length - n)).map Term.unfuse).reverse := by
  have hP := Machine.length_take_placeholders m.placeholders (n - ts.length)
  have htake : (m.filled ts n).take (ts.length - n) = ts.take (ts.length - n) := by
    rw [Machine.filled]
    rcases Nat.le_total n ts.length with h | h
    · rw [List.eq_nil_of_length_eq_zero (hP.trans (by omega)), List.nil_append]
    · rw [Nat.sub_eq_zero_of_le h, List.take_zero, List.take_zero]
  rw [htake, hs, List.drop_reverse, List.length_map, List.map_take]

theorem Represents.beta (h : Represents input m s) (hb : m.beta = .ok m') :
    ∃ s', run input m.focus.binders.toNat s = .running s' ∧ Represents input m' s' := by
  have hsealed' := h.isSealed.beta hb
  obtain ⟨hfocus, ts, hts, hall⟩ := h.isSealed
  have hstack := h.stack
  rw [hts.toList_eq] at hstack
  have hclosed : ∀ v ∈ s.stack, v.ScopedUnder 0 := by
    intro v hv
    rw [hstack, List.mem_reverse, List.mem_map] at hv
    obtain ⟨t, ht, rfl⟩ := hv
    exact (Term.scopedUnder_unfuse 0).mpr (hall t ht).closed
  have hrun : run input m.focus.binders.toNat s = .running _ :=
    run_lams hclosed m.focus.binders.toNat m.focus.body.unfuse
      (h.focus.trans Term.unfuse_eq_lams)
  obtain ⟨focus, spine, hinst, hspine, rfl⟩ := Machine.beta_eq_ok hts hb
  refine ⟨_, hrun, ?_⟩
  have hvalues : ∀ v ∈ ((m.filled ts m.focus.binders.toNat).drop
      (ts.length - m.focus.binders.toNat)).toArray, v.Closed := by
    intro v hv
    rcases List.mem_append.mp (List.mem_of_mem_drop (List.mem_toArray.mp hv)) with hv | hv
    · exact (Machine.sealed_of_mem_take hv).closed
    · exact (hall v hv).closed
  have hsubst := (Term.instantiates_of_ok hinst).unfuse_eq
    (Term.coherent_withBinders.mpr hfocus.coherent)
    (Term.indicesSmall_withBinders.mpr hfocus.indicesSmall) hvalues
  rw [unfuse_nearest_filled hstack h.fresh] at hsubst
  exact {
    written := h.written
    operations := h.operations
    upcoming := h.upcoming
    unhindered := ⟨h.unhindered.settings, h.unhindered.output, h.unhindered.input⟩
    isSealed := hsealed'
    focus := hsubst.symm
    stack := by
      rw [hspine.toList_eq]
      exact unfuse_rest_filled hstack _
    fresh := by
      have hlen : s.stack.length = ts.length := by
        rw [hstack, List.length_reverse, List.length_map]
      rw [next?_take_placeholders, ← h.fresh, ← hlen]
      rfl }

/-! ## Other rules -/

theorem Represents.unwind (h : Represents input m s) {range : UInt32} {func arg : Term}
    (hf : m.focus = .app 0 range func arg) :
    ∃ s', s.step input = .running s' ∧ Represents input (m.unwind func arg) s' := by
  obtain ⟨hfocus, ts, hts, hall⟩ := h.isSealed
  rw [hf] at hfocus
  have hsf : s.focus = .app func.unfuse arg.unfuse := by
    rw [h.focus, hf]
    rfl
  refine ⟨_, by rw [step, hsf], ?_⟩
  exact {
    written := h.written
    operations := h.operations
    upcoming := h.upcoming
    unhindered := ⟨h.unhindered.settings, h.unhindered.output, h.unhindered.input⟩
    isSealed := Machine.sealed_push hfocus.func hfocus.arg hts hall
    focus := rfl
    stack := by
      rw [Machine.unwind, (hts.push arg).toList_eq, h.stack, hts.toList_eq]
      simp
    fresh := h.fresh }

theorem Represents.headD_stack (h : Represents input m s) :
    s.stack.headD (.atom 0) = m.spine.nearest.unfuse := by
  obtain ⟨_, ts, hts, _⟩ := h.isSealed
  rw [h.stack, hts.toList_eq, hts.nearest_eq, List.headD_eq_head?_getD, List.head?_reverse,
    List.getLast?_map]
  cases ts.getLast? <;> rfl

def Follows (input : Nat → Bool) (s : CallByName) (p : Progress) : Prop :=
  p.Sat (fun m' => ∃ s', s.step input = .running s' ∧ Represents input m' s')
    fun e m' => ∃ id whnf s', e = .halted id whnf ∧
      s.step input = .halted id whnf.unfuse s' ∧ SameStreams input m' s'

theorem Represents.dispatch (h : Represents input m s) {id : UInt32} (hf : m.focus = .atom 0 id) :
    Follows input s (m.dispatch id) := by
  have hsf : s.focus = .atom id := by
    rw [h.focus, hf]
    rfl
  have hsealed := Machine.sealed_dispatch h.isSealed id
  obtain ⟨_, ts, hts, _⟩ := h.isSealed
  rw [Machine.dispatch_of_unhindered h.unhindered] at hsealed ⊢
  unfold Follows
  rw [step, hsf]
  dsimp only
  rw [CallByName.dispatch, h.headD_stack]
  cases hop : BitOp.ofAtomId? id with
  | none =>
    obtain ⟨output, hflush, hu, hw⟩ := Machine.flush_of_unlimited
      (m := { m with focus := m.spine.nearest, spine := m.spine.clear }) h.unhindered.output
    simp only [Machine.stop, hflush, Progress.andThen]
    exact ⟨id, m.spine.nearest, _, rfl, rfl, ⟨hw.trans h.written, h.operations, h.upcoming⟩⟩
  | some op =>
    rw [hop] at hsealed
    cases op with
    | read =>
      obtain ⟨output, rest, hread, hu, hw, hn, hrest⟩ := Machine.read_of_unlimited
        (m := { m with focus := m.spine.nearest, spine := m.spine.clear }) h.unhindered.output
        h.unhindered.input
      simp only [Machine.execute, hread, Progress.andThen] at hsealed ⊢
      refine ⟨_, rfl, ?_⟩
      exact {
        written := hw.trans h.written
        operations := by rw [h.operations, Nat.add_assoc]
        upcoming := fun i => by rw [hrest, h.upcoming, Nat.add_right_comm, Nat.add_assoc]
        unhindered := ⟨h.unhindered.settings, hu, hn⟩
        isSealed := hsealed
        focus := rfl
        stack := by
          rw [(hts.clear.push _).toList_eq, h.upcoming]
          cases input (s.bitsRead + 0) <;> rfl
        fresh := rfl }
    | write bit =>
      obtain ⟨output, hwrite, hu, hw⟩ := Machine.write_of_unlimited
        (m := { m with focus := m.spine.nearest, spine := m.spine.clear }) h.unhindered.output bit
      simp only [Machine.execute, hwrite, Progress.andThen] at hsealed ⊢
      refine ⟨_, rfl, ?_⟩
      exact {
        written := by rw [hw]; exact congrArg (· ++ [bit]) h.written
        operations := by
          rw [h.operations, List.length_append, List.length_singleton, Nat.add_right_comm]
        upcoming := h.upcoming
        unhindered := ⟨h.unhindered.settings, hu, h.unhindered.input⟩
        isSealed := hsealed
        focus := rfl
        stack := by
          rw [hts.clear.toList_eq]
          rfl
        fresh := rfl }

/-! ## Runs -/

theorem Represents.step (h : Represents input m s) :
    m.step.Sat (fun m' => ∃ k s', run input (k + 1) s = .running s' ∧ Represents input m' s')
      fun e m' => ∃ id whnf s', e = .halted id whnf ∧
        s.step input = .halted id whnf.unfuse s' ∧ SameStreams input m' s' := by
  -- the textbook machine takes a step for each binder, so it may need more than one
  have hgo : m.isOutOfSteps = false := by
    rw [Machine.isOutOfSteps, h.unhindered.settings]
    rfl
  rcases m.step_cases with ⟨ho, _⟩ | ⟨_, hs⟩
  · rw [hgo] at ho
    cases ho
  rcases hs with ⟨hb, hs⟩ | ⟨range, func, arg, hf, hs⟩ | ⟨id, hf, hs⟩ | ⟨index, hf, _⟩
  · rw [hs]
    cases hbeta : m.beta with
    | error => trivial
    | ok m' =>
      obtain ⟨s', hrun, hr⟩ := h.beta hbeta
      have hpos : m.focus.binders.toNat ≠ 0 := fun e => hb (UInt32.toNat_inj.mp e)
      obtain ⟨k, hk⟩ := Nat.exists_eq_succ_of_ne_zero hpos
      rw [hk] at hrun
      exact ⟨k, s', hrun, hr⟩
  · rw [hs]
    obtain ⟨s', hstep, hr⟩ := h.unwind hf
    exact ⟨0, s', run_succ_of_running 0 hstep, hr⟩
  · rw [hs]
    refine Progress.Sat.mono (h.dispatch hf) ?_ fun _ _ he => he
    rintro m' ⟨s', hstep, hr⟩
    exact ⟨0, s', run_succ_of_running 0 hstep, hr⟩
  · -- a variable without binders is loose
    have hclosed := h.isSealed.1.closed
    rw [hf] at hclosed
    exact absurd hclosed (by simp [Term.ScopedUnder])

theorem Represents.run (h : Represents input m s) (n : Nat) :
    (Machine.run n m).Sat
      (fun m' => ∃ k s', n ≤ k ∧ run input k s = .running s' ∧ Represents input m' s')
      fun e m' => ∃ id whnf k s', e = .halted id whnf ∧
        run input k s = .halted id whnf.unfuse s' ∧ SameStreams input m' s' := by
  induction n generalizing m s with
  | zero => exact ⟨0, s, Nat.le_refl 0, rfl, h⟩
  | succ n ih =>
    have hstep := h.step
    rw [Machine.run_succ]
    cases hm : m.step with
    | faulted => trivial
    | ended e m' =>
      rw [hm] at hstep
      obtain ⟨id, whnf, s', he, hs, hstreams⟩ := hstep
      exact ⟨id, whnf, 1, s', he, by rw [CallByName.run, hs], hstreams⟩
    | running m' =>
      rw [hm] at hstep
      obtain ⟨k, s', hs, hr⟩ := hstep
      refine Progress.Sat.mono (ih hr) ?_ ?_
      · rintro m'' ⟨l, s'', hl, hrun, hr'⟩
        exact ⟨k + 1 + l, s'', by omega, (run_add l hs).trans hrun, hr'⟩
      · rintro e m'' ⟨id, whnf, l, s'', he, hrun, hstreams⟩
        exact ⟨id, whnf, k + 1 + l, s'', he, (run_add l hs).trans hrun, hstreams⟩

theorem halted_unique {n n' : Nat} {id id' : UInt32} {whnf whnf' : Lambda} {t t' : CallByName}
    (h : run input n s = .halted id whnf t) (h' : run input n' s = .halted id' whnf' t') :
    id = id' ∧ whnf = whnf' ∧ t = t' := by
  have hk := run_of_halted h n'
  rw [Nat.add_comm, run_of_halted h' n] at hk
  cases hk
  exact ⟨rfl, rfl, rfl⟩

/-! ## Ends of runs -/

theorem Represents.halts_of_ended (h : Represents input m s) {n : Nat} {id : UInt32} {v : Term}
    (hrun : m.run n = .ended (.halted id v) m') :
    ∃ k s', s.run input k = .halted id v.unfuse s' ∧ SameStreams input m' s' := by
  have hn := h.run n
  rw [hrun] at hn
  obtain ⟨_, _, k, s', he, hs, hstreams⟩ := hn
  cases he
  exact ⟨k, s', hs, hstreams⟩

theorem Represents.ended_of_halts (h : Represents input m s)
    (hf : ∀ n fault, m.run n ≠ .faulted fault) {n : Nat} {id : UInt32} {whnf : Lambda}
    {s' : CallByName} (hs : s.run input n = .halted id whnf s') :
    ∃ v m', m.run n = .ended (.halted id v) m' ∧ v.unfuse = whnf ∧ SameStreams input m' s' := by
  have hn := h.run n
  cases hrun : m.run n with
  | faulted fault => exact absurd hrun (hf n fault)
  | running m' =>
    -- the textbook machine has gone on for as many steps
    rw [hrun] at hn
    obtain ⟨k, s'', hk, hs', _⟩ := hn
    obtain ⟨t, ht⟩ := run_of_le hk hs'
    rw [ht] at hs
    cases hs
  | ended e m' =>
    rw [hrun] at hn
    obtain ⟨id', v, k, s'', rfl, hs', hstreams⟩ := hn
    obtain ⟨rfl, rfl, rfl⟩ := halted_unique hs hs'
    exact ⟨v, m', rfl, rfl, hstreams⟩

theorem Represents.runs_forever_iff (h : Represents input m s)
    (hf : ∀ n fault, m.run n ≠ .faulted fault) :
    (∀ n, ∃ m', m.run n = .running m') ↔ ∀ n, ∃ s', s.run input n = .running s' := by
  constructor
  · intro hall n
    obtain ⟨m', hrun⟩ := hall n
    have hn := h.run n
    rw [hrun] at hn
    obtain ⟨k, s', hk, hs, _⟩ := hn
    exact run_of_le hk hs
  · intro hall n
    have hn := h.run n
    cases hrun : m.run n with
    | faulted fault => exact absurd hrun (hf n fault)
    | running m' => exact ⟨m', rfl⟩
    | ended e m' =>
      rw [hrun] at hn
      obtain ⟨id, v, k, s', _, hs, _⟩ := hn
      obtain ⟨t, ht⟩ := hall k
      rw [ht] at hs
      cases hs

end

/-- **Fused binders change nothing.** On a sealed program and an input that never fails, with an
output that takes everything and neither a trace nor a limit, a machine that never faults halts
just when the textbook machine does: with the same atom and result, after the same bits written
and read. Otherwise both run for ever. -/
theorem machine_halts_iff_halts {program : Term} {deliveries : List Delivery} (hp : program.Sealed)
    (hd : ∀ reason, .failure reason ∉ deliveries)
    (hf : ∀ n fault, Machine.run n (.start ⟨false, none⟩ program (.ofDeliveries deliveries)
      (.limited none none)) ≠ .faulted fault) :
    let m := Machine.start ⟨false, none⟩ program (.ofDeliveries deliveries) (.limited none none)
    let s := start program.unfuse
    let input := (Input.ofDeliveries deliveries).upcoming
    (∀ id whnf written bitsRead,
      (∃ n v m', m.run n = .ended (.halted id v) m' ∧ v.unfuse = whnf ∧
        m'.output.written = written ∧ m'.tally.operations = written.length + bitsRead ∧
        ∀ i, m'.input.upcoming i = input (bitsRead + i)) ↔
      ∃ n s', s.run input n = .halted id whnf s' ∧ s'.written = written ∧
        s'.bitsRead = bitsRead) ∧
    ((∀ n, ∃ m', m.run n = .running m') ↔ ∀ n, ∃ s', s.run input n = .running s') := by
  intro m s input
  have hrep : Represents input m s := represents_start hp hd
  refine ⟨fun id whnf written bitsRead => ⟨?_, ?_⟩, hrep.runs_forever_iff hf⟩
  · rintro ⟨n, v, m', hrun, rfl, rfl, hops, _⟩
    obtain ⟨k, s', hs, hstreams⟩ := hrep.halts_of_ended hrun
    refine ⟨k, s', hs, hstreams.written.symm, ?_⟩
    have hops' := hstreams.operations
    rw [← hstreams.written] at hops'
    omega
  · rintro ⟨n, s', hs, rfl, rfl⟩
    obtain ⟨v, m', hrun, hv, hstreams⟩ := hrep.ended_of_halts hf hs
    exact ⟨n, v, m', hrun, hv, hstreams.written, hstreams.operations, hstreams.upcoming⟩

theorem machine_halts_iff_halts_echo :
    let program := ((Term.var 0 2).apply (((((Term.var 0 0).apply (.var 0 1)).apply
      (.var 0 2)).apply (.var 0 4)).withBinders 1)).withBinders 4
    let deliveries := [.interrupted, .byte 0xA5]
    let m := Machine.start ⟨false, none⟩ program (.ofDeliveries deliveries) (.limited none none)
    let input := (Input.ofDeliveries deliveries).upcoming
    program.Sealed ∧ (∀ reason, .failure reason ∉ deliveries) ∧
      (∀ n fault, m.run n ≠ .faulted fault) ∧
      ∃ n v m', m.run n = .ended (.halted 0 v) m' ∧ v.unfuse = .atom 0 ∧
        m'.output.written = [true] ∧ m'.tally.operations = [true].length + 1 ∧
        ∀ i, m'.input.upcoming i = input (1 + i) := by
  -- a bit is read and written back, and the first of four placeholders halts the run
  intro program deliveries m input
  have hp : program.Sealed := by decide
  have hd : ∀ reason, .failure reason ∉ deliveries := by simp [deliveries]
  have hend : (match m.run 10 with | .ended _ _ => true | _ => false) = true := by
    dsimp only [m, program, deliveries]
    decide +kernel
  have hf : ∀ n fault, m.run n ≠ .faulted fault := by
    cases hrun : m.run 10 with
    | running => rw [hrun] at hend; cases hend
    | faulted => rw [hrun] at hend; cases hend
    | ended e m' => exact Machine.not_faulted_of_ended hrun
  refine ⟨hp, hd, hf, ?_⟩
  exact ((machine_halts_iff_halts hp hd hf).1 0 (.atom 0) [true] 1).mpr ⟨15, _, rfl, rfl, rfl⟩

end CallByName

end WeakHead
