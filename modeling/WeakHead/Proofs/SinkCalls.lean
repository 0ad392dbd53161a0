import WeakHead.Proofs.StepLimit

/-!
# What a machine asks of its sink

A step makes a few calls to the sink, and the first that is refused ends the
run. Which calls these are, and what else the step does, is the same for every
sink, and a trace only adds calls. So a run on a sink that takes everything
tells what the run does on any other.
-/

namespace WeakHead

namespace Sink

/-! ## Calls -/

inductive Call where
  | write (data : Array UInt8)
  | flush
  deriving DecidableEq, Repr

def Call.refusal : Call → StreamFailure
  | .write _ => .sinkFull
  | .flush => .flushRefused

def Call.data : Call → List UInt8
  | .write data => data.toList
  | .flush => []

def answer (s : Sink) : Call → Bool × Sink
  | .write data => s.write data
  | .flush => s.flush

def answerAll (s : Sink) : List Call → Option StreamFailure × Sink
  | [] => (none, s)
  | c :: cs =>
    match s.answer c with
    | (true, s) => s.answerAll cs
    | (false, s) => (some c.refusal, s)

theorem answerAll_append (s : Sink) (cs cs' : List Call) :
    s.answerAll (cs ++ cs') = match s.answerAll cs with
      | (none, s) => s.answerAll cs'
      | (some cause, s) => (some cause, s) := by
  induction cs generalizing s with
  | nil => rfl
  | cons c cs ih =>
    simp only [List.cons_append, answerAll]
    rcases s.answer c with ⟨taken, s'⟩
    cases taken with
    | true => exact ih s'
    | false => rfl

structure TakesAll (s : Sink) : Prop where
  byteLimit : s.byteLimit = none
  flushLimit : s.flushLimit = none

def accept (s : Sink) : Call → Sink
  | .write data => { s with bytes := s.bytes ++ data }
  | .flush => { s with flushes := s.flushes.push s.bytes.size }

def acceptAll (s : Sink) (cs : List Call) : Sink := cs.foldl accept s

section
variable {s : Sink}

theorem TakesAll.accept (h : s.TakesAll) (c : Call) : (s.accept c).TakesAll := by
  cases c with
  | write data => exact ⟨h.byteLimit, h.flushLimit⟩
  | flush => exact ⟨h.byteLimit, h.flushLimit⟩

theorem TakesAll.answer_eq (h : s.TakesAll) (c : Call) : s.answer c = (true, s.accept c) := by
  cases c with
  | write data => simp [answer, Sink.accept, write, room, h.byteLimit]
  | flush => simp [answer, Sink.accept, flush, h.flushLimit]

theorem TakesAll.answerAll_eq (h : s.TakesAll) (cs : List Call) :
    s.answerAll cs = (none, s.acceptAll cs) := by
  induction cs generalizing s with
  | nil => rfl
  | cons c cs ih =>
    rw [answerAll, h.answer_eq]
    exact ih (h.accept c)

theorem bytes_acceptAll (s : Sink) (cs : List Call) :
    (s.acceptAll cs).bytes.toList = s.bytes.toList ++ cs.flatMap Call.data := by
  induction cs generalizing s with
  | nil => simp [Sink.acceptAll]
  | cons c cs ih =>
    have hrest := ih (s.accept c)
    cases c with
    | write data => simpa [Sink.acceptAll, Sink.accept, Call.data] using hrest
    | flush => simpa [Sink.acceptAll, Sink.accept, Call.data] using hrest

theorem TakesAll.acceptAll (h : s.TakesAll) (cs : List Call) : (s.acceptAll cs).TakesAll := by
  induction cs generalizing s with
  | nil => exact h
  | cons c cs ih => exact ih (h.accept c)

end

end Sink

theorem Progress.andThen_assoc (p : Progress) (f g : Machine → Progress) :
    (p.andThen f).andThen g = p.andThen fun m => (f m).andThen g := by
  cases p <;> rfl

theorem Progress.map_congr {p : Progress} {f g : Machine → Machine}
    (h : ∀ m, p.machine? = some m → f m = g m) : p.map f = p.map g := by
  cases p with
  | running m => exact congrArg Progress.running (h m rfl)
  | ended e m => exact congrArg (Progress.ended e) (h m rfl)
  | faulted fault => rfl

namespace Machine

def withSink (s : Sink) (m : Machine) : Machine :=
  { m with output := { m.output with sink := s } }

def calling (m : Machine) (cs : List Sink.Call) (p : Progress) : Progress :=
  match m.output.sink.answerAll cs with
  | (none, s) => p.map (withSink s)
  | (some cause, s) => .ended (.failed cause) (m.withSink s)

end Machine

def Output.addBit (output : Output) (bit : Bool) : Output where
  sink := output.sink
  bits := if output.bits.length < 7 then output.bits ++ [bit] else []
  bytesWritten := if output.bits.length < 7 then output.bytesWritten else output.bytesWritten + 1

def Output.completed? (output : Output) (bit : Bool) : Option UInt8 :=
  if output.bits.length < 7 then none else some (Byte.ofBits (output.bits ++ [bit]))

theorem Output.writeBit_eq (output : Output) (bit : Bool) :
    output.writeBit bit = match output.completed? bit with
      | none => (true, output.addBit bit)
      | some byte => match output.sink.write #[byte] with
        | (true, s) => (true, { output.addBit bit with sink := s })
        | (false, s) => (false, { output with sink := s }) := by
  unfold writeBit completed? addBit
  by_cases h : output.bits.length < 7
  · have hlen : (output.bits ++ [bit]).length < 8 := by simpa using Nat.succ_lt_succ h
    simp only [if_pos h, if_pos hlen]
  · have hlen : ¬ (output.bits ++ [bit]).length < 8 := by simpa using h
    simp only [if_neg h, if_neg hlen]
    rcases output.sink.write #[Byte.ofBits (output.bits ++ [bit])] with ⟨taken, s⟩
    cases taken <;> rfl

/-! ## Rules -/

inductive Rule where
  | stop (ending : Ending)
  | beta
  | unwind (func arg : Term)
  | dispatch (id : UInt32)
  deriving DecidableEq, Repr

namespace Machine

def rule (m : Machine) : Rule :=
  if m.isOutOfSteps then .stop .outOfSteps
  else if m.focus.binders ≠ 0 then .beta
  else match m.focus with
    | .app _ _ func arg => .unwind func arg
    | .atom _ id => .dispatch id
    | .var _ index => .stop (.stuck index)

theorem step_eq_of_rule (m : Machine) : m.step = match m.rule with
    | .stop ending => m.stop ending
    | .beta => .ofChecked m.beta
    | .unwind func arg => .running (m.unwind func arg)
    | .dispatch id => m.dispatch id := by
  unfold step rule
  by_cases ho : m.isOutOfSteps = true
  · rw [if_pos ho, if_pos ho]
  · rw [if_neg ho, if_neg ho]
    by_cases hb : m.focus.binders ≠ 0
    · rw [if_pos hb, if_pos hb]
    · rw [if_neg hb, if_neg hb]
      cases m.focus <;> rfl

theorem ending_of_rule {m : Machine} {e : Ending} (h : m.rule = .stop e) :
    e = .outOfSteps ∨ ∃ index, e = .stuck index := by
  unfold rule at h
  by_cases ho : m.isOutOfSteps = true
  · rw [if_pos ho] at h
    cases h
    exact .inl rfl
  · rw [if_neg ho] at h
    by_cases hb : m.focus.binders ≠ 0
    · rw [if_pos hb] at h
      cases h
    · rw [if_neg hb] at h
      cases hf : m.focus with
      | var binders index =>
        rw [hf] at h
        cases h
        exact .inr ⟨index, rfl⟩
      | atom => rw [hf] at h; cases h
      | app => rw [hf] at h; cases h

theorem ne_failed_of_rule {m : Machine} {e : Ending} (h : m.rule = .stop e) (cause : StreamFailure) :
    e ≠ .failed cause := by
  rcases ending_of_rule h with rfl | ⟨_, rfl⟩ <;> nofun

def operation? (m : Machine) : Option BitOp :=
  match m.rule with
  | .dispatch id => BitOp.ofAtomId? id
  | _ => none

theorem rule_of_operation {m : Machine} {op : BitOp} (h : m.operation? = some op) :
    ∃ id, m.rule = .dispatch id ∧ BitOp.ofAtomId? id = some op := by
  unfold operation? at h
  cases hr : m.rule with
  | dispatch id =>
    rw [hr] at h
    exact ⟨id, rfl, h⟩
  | stop ending => rw [hr] at h; cases h
  | beta => rw [hr] at h; cases h
  | unwind func arg => rw [hr] at h; cases h

def takeNearest (m : Machine) : Machine :=
  { m with focus := m.spine.nearest, spine := m.spine.clear }

def traceLine (id : UInt32) (argument : Term) : Array UInt8 :=
  ("operation " ++ id.toNat.repr ++ " with " ++ argument.render ++ "\n").toUTF8.data

def announceCalls (m : Machine) (id : UInt32) : List Sink.Call :=
  if m.settings.trace then [.write (traceLine id m.spine.nearest)] else []

def executeCalls (m : Machine) : BitOp → List Sink.Call
  | .read => if m.input.needsByte then [.flush] else []
  | .write bit => (m.output.completed? bit).toList.map fun byte => .write #[byte]

/-- The calls of the next step, if none is refused. -/
def calls (m : Machine) : List Sink.Call :=
  match m.rule with
  | .stop _ => [.flush]
  | .beta => []
  | .unwind _ _ => []
  | .dispatch id =>
    m.announceCalls id ++
      match BitOp.ofAtomId? id with
      | some op => m.executeCalls op
      | none => [.flush]

def caller (m : Machine) : Machine :=
  match m.rule with
  | .dispatch _ => m.takeNearest
  | _ => m

def finishOperation (m : Machine) : Machine :=
  { m with
    placeholders := .blank
    tally := { m.tally with operations := m.tally.operations + 1 } }

def executed (m : Machine) : BitOp → Progress
  | .read =>
    match m.input.readBit with
    | .ok (bit, input) =>
      .running { m with input := input, spine := m.spine.push (.ofBit bit) }.finishOperation
    | .error reason => .ended (.failed (.input reason)) m
  | .write bit => .running { m with output := m.output.addBit bit }.finishOperation

/-- The next step if no call is refused, with the sink as it was. -/
def settled (m : Machine) : Progress :=
  match m.rule with
  | .stop ending => .ended ending m
  | .beta => .ofChecked m.beta
  | .unwind func arg => .running (m.unwind func arg)
  | .dispatch id =>
    match BitOp.ofAtomId? id with
    | some op => m.takeNearest.executed op
    | none => .ended (.halted id m.spine.nearest) m.takeNearest

/-! ## What a step does -/

section
variable {m : Machine}

theorem flush_not_mem_announceCalls (m : Machine) (id : UInt32) :
    .flush ∉ m.announceCalls id := by
  unfold announceCalls
  split <;> simp

theorem calls_of_operation {op : BitOp} (hop : m.operation? = some op) :
    m.calls = m.announceCalls op.atomId ++ m.executeCalls op := by
  obtain ⟨id, hr, hid⟩ := rule_of_operation hop
  obtain rfl := BitOp.ofAtomId?_eq_some_iff.mp hid
  simp only [calls, hr, hid]

theorem settled_of_operation {op : BitOp} (hop : m.operation? = some op) :
    m.settled = m.takeNearest.executed op := by
  obtain ⟨id, hr, hid⟩ := rule_of_operation hop
  simp only [settled, hr, hid]

def Rearranged (m m' : Machine) : Prop :=
  ∃ focus spine placeholders tally,
    m' = { m with focus := focus, spine := spine, placeholders := placeholders, tally := tally } ∧
      tally.operations = m.tally.operations

theorem settled_of_no_operation (hop : m.operation? = none) : m.settled.Sat
    (fun m' => m.calls = [] ∧ m.Rearranged m')
    fun e m' => (m.calls = [.flush] ∨ ∃ id, m.calls = m.announceCalls id ++ [.flush]) ∧
      (∀ cause, e ≠ .failed cause) ∧ m.Rearranged m' := by
  unfold calls settled
  unfold operation? at hop
  cases hr : m.rule with
  | stop ending => exact ⟨.inl rfl, ne_failed_of_rule hr, _, _, _, _, rfl, rfl⟩
  | unwind func arg => exact ⟨rfl, _, _, _, _, rfl, rfl⟩
  | beta =>
    dsimp only
    cases hb : m.beta with
    | error fault => trivial
    | ok m' =>
      obtain ⟨focus, spine, placeholders, rfl⟩ := beta_changes hb
      exact ⟨rfl, _, _, _, _, rfl, rfl⟩
  | dispatch id =>
    rw [hr] at hop
    dsimp only at hop ⊢
    rw [hop]
    exact ⟨.inr ⟨id, rfl⟩, nofun, _, _, _, _, rfl, rfl⟩

end

/-! ## Steps -/

section
variable {m m₁ : Machine} {cs cs' : List Sink.Call} {p : Progress}

theorem calling_single (m : Machine) (c : Sink.Call) (p : Progress) :
    m.calling [c] p = match m.output.sink.answer c with
      | (true, s) => p.map (withSink s)
      | (false, s) => .ended (.failed c.refusal) (m.withSink s) := by
  unfold calling Sink.answerAll
  rcases m.output.sink.answer c with ⟨taken, s⟩
  cases taken <;> rfl

theorem calling_andThen {next : Machine → Progress}
    (h : ∀ s, next (m₁.withSink s) = (m.withSink s).calling cs' p) :
    (m.calling cs (.running m₁)).andThen next = m.calling (cs ++ cs') p := by
  unfold calling
  rw [Sink.answerAll_append]
  rcases m.output.sink.answerAll cs with ⟨cause?, s⟩
  cases cause? with
  | none => exact h s
  | some cause => rfl

theorem calling_congr {q : Progress} (h : ∀ s, p.map (withSink s) = q.map (withSink s)) :
    m.calling cs p = m.calling cs q := by
  unfold calling
  rcases m.output.sink.answerAll cs with ⟨cause?, s⟩
  cases cause? with
  | none => exact h s
  | some cause => rfl

theorem calling_andThen_map {q : Progress} {next : Machine → Progress}
    (h : ∀ s, (q.map (withSink s)).andThen next = p.map (withSink s)) :
    (m.calling cs q).andThen next = m.calling cs p := by
  unfold calling
  rcases m.output.sink.answerAll cs with ⟨cause?, s⟩
  cases cause? with
  | none => exact h s
  | some cause => rfl

theorem flush_eq_calling (m : Machine) : m.flush = m.calling [.flush] (.running m) := by
  rw [calling_single, flush, Sink.answer]
  rcases m.output.sink.flush with ⟨done, s⟩
  cases done <;> rfl

theorem stop_eq_calling (m : Machine) (ending : Ending) :
    m.stop ending = m.calling [.flush] (.ended ending m) := by
  rw [stop, flush_eq_calling]
  exact calling_andThen_map fun _ => rfl

theorem announce_eq_calling (m : Machine) (id : UInt32) :
    m.takeNearest.announce id m.spine.nearest =
      m.takeNearest.calling (m.announceCalls id) (.running m.takeNearest) := by
  unfold announce announceCalls
  by_cases ht : m.settings.trace = true
  · have ht' : m.takeNearest.settings.trace = true := ht
    rw [if_pos ht, if_pos ht', calling_single]
    unfold Sink.answer traceLine
    dsimp only
    rcases m.takeNearest.output.sink.write _ with ⟨taken, s⟩
    cases taken <;> rfl
  · have ht' : ¬ m.takeNearest.settings.trace = true := ht
    rw [if_neg ht, if_neg ht']
    rfl

theorem write_eq_calling (m : Machine) (bit : Bool) :
    m.write bit = m.calling (m.executeCalls (.write bit))
      (.running { m with output := m.output.addBit bit }) := by
  rw [write, Output.writeBit_eq, executeCalls]
  cases m.output.completed? bit with
  | none => rfl
  | some byte =>
    simp only [Option.toList_some, List.map_cons, List.map_nil]
    rw [calling_single, Sink.answer]
    rcases m.output.sink.write #[byte] with ⟨taken, s⟩
    cases taken <;> rfl

theorem ready_eq_calling (m : Machine) : (if m.input.needsByte then m.flush else .running m) =
    m.calling (m.executeCalls .read) (.running m) := by
  unfold executeCalls
  by_cases hn : m.input.needsByte = true
  · rw [if_pos hn, if_pos hn]
    exact flush_eq_calling m
  · rw [if_neg hn, if_neg hn]
    rfl

theorem executed_withSink (m : Machine) (s s' : Sink) (op : BitOp) :
    ((m.withSink s).executed op).map (withSink s') = (m.executed op).map (withSink s') := by
  cases op with
  | write bit => rfl
  | read =>
    unfold executed
    rw [show (m.withSink s).input = m.input from rfl]
    cases m.input.readBit <;> rfl

theorem execute_eq_calling (m : Machine) (op : BitOp) :
    m.execute op = m.calling (m.executeCalls op) (m.executed op) := by
  cases op with
  | write bit =>
    show (m.write bit).andThen _ = _
    rw [write_eq_calling]
    exact calling_andThen_map fun _ => rfl
  | read =>
    show (Progress.andThen _ _).andThen _ = _
    rw [ready_eq_calling, Progress.andThen_assoc]
    apply calling_andThen_map
    intro s
    unfold executed
    simp only [Progress.map, Progress.andThen]
    rw [show (m.withSink s).input = m.input from rfl]
    cases m.input.readBit <;> rfl

/-- **What a step is, apart from its sink.** -/
theorem step_eq (m : Machine) : m.step = m.caller.calling m.calls m.settled := by
  rw [step_eq_of_rule]
  unfold caller calls settled
  cases m.rule with
  | stop ending => exact stop_eq_calling m ending
  | beta =>
    show _ = (Progress.ofChecked m.beta).map (withSink m.output.sink)
    cases hb : m.beta with
    | error fault => rfl
    | ok m' =>
      obtain ⟨focus, spine, placeholders, rfl⟩ := beta_changes hb
      rfl
  | unwind func arg => rfl
  | dispatch id =>
    show (m.takeNearest.announce id m.spine.nearest).andThen _ = _
    rw [announce_eq_calling]
    apply calling_andThen
    intro s
    dsimp only
    cases BitOp.ofAtomId? id with
    | none => exact stop_eq_calling _ _
    | some op =>
      dsimp only
      rw [execute_eq_calling]
      exact calling_congr fun s' => executed_withSink _ s s' op

theorem step_sat {R : Machine → Prop} {E : Ending → Machine → Prop}
    (hp : m.settled.Sat (fun m' => ∀ s, R (m'.withSink s)) fun e m' => ∀ s, E e (m'.withSink s))
    (hfailed : ∀ cause m', E (.failed cause) m') : m.step.Sat R E := by
  rw [step_eq, calling]
  rcases m.caller.output.sink.answerAll m.calls with ⟨cause?, s⟩
  cases cause? with
  | some cause => exact hfailed cause _
  | none =>
    cases hs : m.settled with
    | running m' => rw [hs] at hp; exact hp s
    | ended e m' => rw [hs] at hp; exact hp s
    | faulted fault => trivial

end

/-! ## Runs -/

/-- What `f` says of the machines that the first `n` steps of a run start from. -/
def history {α : Type} (f : Machine → List α) : Nat → Machine → List α
  | 0, _ => []
  | n + 1, m =>
    f m ++ match m.step with
      | .running m => history f n m
      | .ended _ _ => []
      | .faulted _ => []

theorem flatMap_history {α β : Type} (f : Machine → List α) (g : α → List β) (n : Nat)
    (m : Machine) : (history f n m).flatMap g = history (fun m => (f m).flatMap g) n m := by
  induction n generalizing m with
  | zero => rfl
  | succ n ih =>
    rw [history, history, List.flatMap_append]
    cases m.step with
    | running m' => exact congrArg _ (ih m')
    | ended ending m' => rfl
    | faulted fault => rfl

def trail (n : Nat) (m : Machine) : List Machine := history (fun m => [m]) n m

theorem flatMap_trail {α : Type} (f : Machine → List α) (n : Nat) (m : Machine) :
    (trail n m).flatMap f = history f n m := by
  simp only [trail, flatMap_history, List.flatMap_singleton]

/-- What each step keeps, said of the steps so far, a run keeps. -/
theorem run_sat_trail {I : List Machine → Machine → Prop}
    {E : List Machine → Ending → Machine → Prop}
    (hstep : ∀ ms m, I ms m → m.step.Sat (I (ms ++ [m])) (E (ms ++ [m]))) {m : Machine}
    (h : I [] m) (n : Nat) : (run n m).Sat (I (trail n m)) (E (trail n m)) := by
  suffices hall : ∀ ms m, I ms m → (run n m).Sat (I (ms ++ trail n m)) (E (ms ++ trail n m)) from
    hall [] m h
  induction n with
  | zero =>
    intro ms m h
    show I (ms ++ []) m
    rwa [List.append_nil]
  | succ n ih =>
    intro ms m h
    have hfirst := hstep ms m h
    rw [run_succ, trail, history, ← List.append_assoc]
    cases hs : m.step with
    | running m₁ =>
      rw [hs] at hfirst
      exact ih _ _ hfirst
    | ended e m₁ =>
      rw [hs] at hfirst
      rw [List.append_nil]
      exact hfirst
    | faulted fault => trivial

def operations (n : Nat) (m : Machine) : List BitOp := history (fun m => m.operation?.toList) n m

theorem operations_succ (n : Nat) (m : Machine) : operations (n + 1) m =
    m.operation?.toList ++ match m.step with
      | .running m => operations n m
      | .ended _ _ => []
      | .faulted _ => [] := rfl

def withTrace (trace : Bool) (m : Machine) : Machine :=
  { m with settings := { m.settings with trace := trace } }

def tracedCalls (trace : Bool) (m : Machine) : List Sink.Call := (m.withTrace trace).calls

section
variable {m : Machine} {s : Sink}

theorem settled_withTrace (m : Machine) (trace : Bool) (s s' : Sink) :
    ((m.withTrace trace).withSink s).settled.map (withSink s') =
      m.settled.map fun m => (m.withTrace trace).withSink s' := by
  unfold settled
  rw [show ((m.withTrace trace).withSink s).rule = m.rule from rfl]
  cases m.rule with
  | stop ending => rfl
  | beta =>
    have hbeta := m.beta_withStreams { m.settings with trace := trace } m.input
      { m.output with sink := s }
    dsimp only
    rw [show ((m.withTrace trace).withSink s).beta = _ from hbeta]
    cases hb : m.beta with
    | error fault => rfl
    | ok m' =>
      obtain ⟨focus, spine, placeholders, rfl⟩ := beta_changes hb
      rfl
  | unwind func arg => rfl
  | dispatch id =>
    dsimp only
    cases BitOp.ofAtomId? id with
    | none => rfl
    | some op =>
      cases op with
      | write bit => rfl
      | read =>
        unfold executed
        rw [show ((m.withTrace trace).withSink s).takeNearest.input = m.takeNearest.input from rfl]
        cases m.takeNearest.input.readBit <;> rfl

theorem output_caller (m : Machine) : m.caller.output = m.output := by
  unfold caller
  cases m.rule <;> rfl

theorem step_of_takesAll (h : m.output.sink.TakesAll) :
    m.step = m.settled.map (withSink (m.output.sink.acceptAll m.calls)) := by
  rw [step_eq, calling, output_caller, h.answerAll_eq]

theorem run_withTrace (h : m.output.sink.TakesAll) (trace : Bool) (s : Sink) (n : Nat) :
    match s.answerAll (history (tracedCalls trace) n m) with
    | (none, s') => run n ((m.withTrace trace).withSink s) =
        (run n m).map fun m => (m.withTrace trace).withSink s'
    | (some cause, s') => ∃ m', run n ((m.withTrace trace).withSink s) =
        .ended (.failed cause) m' ∧ m'.output.sink = s' := by
  induction n generalizing m s with
  | zero => rfl
  | succ n ih =>
    -- the two machines differ in the calls that they make and in nothing else
    have hstep : ((m.withTrace trace).withSink s).step =
        match s.answerAll (m.tracedCalls trace) with
        | (none, s') => m.settled.map fun m => (m.withTrace trace).withSink s'
        | (some cause, s') =>
          .ended (.failed cause) (((m.withTrace trace).withSink s).caller.withSink s') := by
      rw [step_eq, calling, output_caller]
      simp only [settled_withTrace]
      rfl
    rw [history, run_succ, run_succ, Sink.answerAll_append, hstep, step_of_takesAll h]
    rcases s.answerAll (m.tracedCalls trace) with ⟨cause?, s₁⟩
    cases cause? with
    | some cause => exact ⟨_, rfl, rfl⟩
    | none =>
      cases m.settled with
      | running m₁ =>
        exact ih (m := m₁.withSink (m.output.sink.acceptAll m.calls)) (h.acceptAll m.calls) s₁
      | ended ending m₁ => rfl
      | faulted fault => rfl

theorem run_withTrace_of_takesAll (h : m.output.sink.TakesAll) (trace : Bool) (hs : s.TakesAll)
    (n : Nat) : run n ((m.withTrace trace).withSink s) =
      (run n m).map fun m' => (m'.withTrace trace).withSink
        (s.acceptAll (history (tracedCalls trace) n m)) := by
  have hrun := run_withTrace h trace s n
  rw [hs.answerAll_eq] at hrun
  exact hrun

theorem run_withSink (h : m.output.sink.TakesAll) (s : Sink) (n : Nat) :
    match s.answerAll (history (tracedCalls m.settings.trace) n m) with
    | (none, s') => run n (m.withSink s) = (run n m).map (withSink s')
    | (some cause, s') => ∃ m', run n (m.withSink s) = .ended (.failed cause) m' ∧
        m'.output.sink = s' := by
  have hrun := run_withTrace h m.settings.trace s n
  have hself := run_withTrace_of_takesAll h m.settings.trace h n
  rw [show (m.withTrace m.settings.trace).withSink s = m.withSink s from rfl] at hrun
  rw [show (m.withTrace m.settings.trace).withSink m.output.sink = m from rfl] at hself
  generalize s.answerAll (history (tracedCalls m.settings.trace) n m) = answer at hrun ⊢
  rcases answer with ⟨cause?, s'⟩
  cases cause? with
  | some cause => exact hrun
  | none =>
    dsimp only at hrun ⊢
    rw [hrun, hself]
    cases run n m <;> rfl

theorem run_withSink_of_taken {n : Nat} {s' : Sink} (h : m.output.sink.TakesAll)
    (hs : s.answerAll (history (tracedCalls m.settings.trace) n m) = (none, s')) :
    run n (m.withSink s) = (run n m).map (withSink s') := by
  have hrun := run_withSink h s n
  rw [hs] at hrun
  exact hrun

theorem run_withSink_of_refused {n : Nat} {s' : Sink} {cause : StreamFailure}
    (h : m.output.sink.TakesAll)
    (hs : s.answerAll (history (tracedCalls m.settings.trace) n m) = (some cause, s')) :
    ∃ m', run n (m.withSink s) = .ended (.failed cause) m' ∧ m'.output.sink = s' := by
  have hrun := run_withSink h s n
  rw [hs] at hrun
  exact hrun

theorem sink_run (h : m.output.sink.TakesAll) (n : Nat) {m' : Machine}
    (hm' : (run n m).machine? = some m') :
    m'.output.sink = m.output.sink.acceptAll (history (tracedCalls m.settings.trace) n m) := by
  have hself : run n m = _ := run_withSink_of_taken h (h.answerAll_eq _)
  rw [hself, Progress.machine?_map] at hm'
  obtain ⟨m₁, -, rfl⟩ := Option.map_eq_some_iff.mp hm'
  rfl

end

end Machine

end WeakHead
