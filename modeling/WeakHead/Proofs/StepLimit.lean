import WeakHead.Proofs.Transitions

/-!
# Limits on steps

The limit is looked at before each step and nowhere else. Every step that is
not the last counts once, so a run with a limit keeps pace with a run with a
larger limit, or with none, until it has taken as many steps as it may.
-/

namespace WeakHead

theorem Checked.map_bind {α β γ : Type} {x : Checked α} {f : α → Checked β} {g : β → γ} :
    (x >>= f).map g = x >>= fun a => (f a).map g := by
  cases x <;> rfl

/-! ## Another limit -/

def Machine.withLimit (limit : Option Nat) (m : Machine) : Machine :=
  { m with settings := { m.settings with maxSteps := limit } }

namespace Progress

def map (f : Machine → Machine) : Progress → Progress
  | .running m => .running (f m)
  | .ended e m => .ended e (f m)
  | .faulted fault => .faulted fault

def isOver : Progress → Bool
  | .running _ => false
  | .ended _ _ => true
  | .faulted _ => true

def machine? : Progress → Option Machine
  | .running m => some m
  | .ended _ m => some m
  | .faulted _ => none

def ending? : Progress → Option Ending
  | .running _ => none
  | .ended e _ => some e
  | .faulted _ => none

section
variable {f : Machine → Machine} {p : Progress}

theorem map_andThen {next next' : Machine → Progress} (h : ∀ m, next' (f m) = (next m).map f) :
    (p.map f).andThen next' = (p.andThen next).map f := by
  cases p with
  | running m => exact h m
  | ended => rfl
  | faulted => rfl

theorem exists_running (h : p.isOver = false) : ∃ m, p = .running m := by
  cases p with
  | running m => exact ⟨m, rfl⟩
  | ended => cases h
  | faulted => cases h

theorem exists_ended (h : p.isOver = true) (hm : p.machine?.isSome = true) :
    ∃ e m, p = .ended e m := by
  cases p with
  | running => cases h
  | ended e m => exact ⟨e, m, rfl⟩
  | faulted => cases hm

theorem exists_of_ending? {e : Ending} (h : p.ending? = some e) : ∃ m, p = .ended e m := by
  cases p with
  | running => cases h
  | ended e' m =>
    cases h
    exact ⟨m, rfl⟩
  | faulted => cases h

theorem machine?_map : (p.map f).machine? = p.machine?.map f := by cases p <;> rfl

theorem Sat.of_machine? {R : Machine → Prop} {E : Ending → Machine → Prop} {m : Machine}
    (h : p.Sat R E) (hE : ∀ e m, E e m → R m) (hm : p.machine? = some m) : R m := by
  cases p with
  | running m' =>
    cases hm
    exact h
  | ended e m' =>
    cases hm
    exact hE e m h
  | faulted => cases hm

end

end Progress

namespace Machine

/-! ## Beta steps -/

def withStreams (settings : Settings) (input : Input) (output : Output) (m : Machine) : Machine :=
  { m with settings := settings, input := input, output := output }

section
variable {m m' : Machine}

theorem fillSpine_withStreams (m : Machine) (settings : Settings) (input : Input)
    (output : Output) (n : Nat) : (m.withStreams settings input output).fillSpine n =
      (m.fillSpine n).withStreams settings input output := by
  unfold fillSpine
  by_cases hn : n - m.spine.size = 0
  · have hn' : n - (m.withStreams settings input output).spine.size = 0 := hn
    simp only [hn, hn', if_true]
  · have hn' : ¬ n - (m.withStreams settings input output).spine.size = 0 := hn
    simp only [hn, hn', if_false]
    rfl

theorem beta_withStreams (m : Machine) (settings : Settings) (input : Input) (output : Output) :
    (m.withStreams settings input output).beta =
      m.beta.map (withStreams settings input output) := by
  unfold beta
  rw [show (m.withStreams settings input output).focus = m.focus from rfl]
  dsimp only
  rw [fillSpine_withStreams]
  generalize m.fillSpine m.focus.binders.toNat = filled
  dsimp only [withStreams]
  simp only [Checked.map_bind]
  rfl

theorem fillSpine_changes (m : Machine) (n : Nat) : ∃ spine placeholders,
    m.fillSpine n = { m with spine := spine, placeholders := placeholders } := by
  unfold fillSpine
  by_cases hn : n - m.spine.size = 0
  · simp only [if_pos hn]
    exact ⟨m.spine, m.placeholders, rfl⟩
  · simp only [if_neg hn]
    exact ⟨_, _, rfl⟩

theorem beta_changes (h : m.beta = .ok m') : ∃ focus spine placeholders,
    m' = { m with
      focus := focus
      spine := spine
      placeholders := placeholders
      tally := { m.tally with betas := m.tally.betas + 1 } } := by
  obtain ⟨filled, placeholders, hfill⟩ := m.fillSpine_changes m.focus.binders.toNat
  unfold beta at h
  simp only [hfill, Checked.bind_eq_ok_iff] at h
  obtain ⟨_, _, focus, _, spine, _, h⟩ := h
  cases h
  exact ⟨focus, spine, placeholders, rfl⟩

end

/-! ## Rules -/

section
variable (limit : Option Nat) (m : Machine)

theorem flush_withLimit : (m.withLimit limit).flush = m.flush.map (withLimit limit) := by
  unfold flush
  dsimp only [withLimit]
  rcases m.output.sink.flush with ⟨done, sink⟩
  cases done <;> rfl

theorem stop_withLimit (e : Ending) :
    (m.withLimit limit).stop e = (m.stop e).map (withLimit limit) := by
  unfold stop
  rw [flush_withLimit]
  exact Progress.map_andThen fun _ => rfl

theorem announce_withLimit (id : UInt32) (t : Term) :
    (m.withLimit limit).announce id t = (m.announce id t).map (withLimit limit) := by
  unfold announce
  by_cases ht : m.settings.trace = true
  · have ht' : (m.withLimit limit).settings.trace = true := ht
    rw [if_pos ht, if_pos ht']
    dsimp only [withLimit]
    generalize m.output.sink.write _ = written
    rcases written with ⟨taken, sink⟩
    cases taken <;> rfl
  · have ht' : ¬ (m.withLimit limit).settings.trace = true := ht
    rw [if_neg ht, if_neg ht']
    rfl

theorem beta_withLimit : (m.withLimit limit).beta = m.beta.map (withLimit limit) := by
  have hbeta := m.beta_withStreams { m.settings with maxSteps := limit } m.input m.output
  rw [show (m.withLimit limit).beta = _ from hbeta]
  cases hb : m.beta with
  | error fault => rfl
  | ok m' =>
    obtain ⟨focus, spine, placeholders, rfl⟩ := beta_changes hb
    rfl

theorem write_withLimit (bit : Bool) :
    (m.withLimit limit).write bit = (m.write bit).map (withLimit limit) := by
  unfold write
  dsimp only [withLimit]
  rcases m.output.writeBit bit with ⟨taken, output⟩
  cases taken <;> rfl

theorem read_withLimit : (m.withLimit limit).read = m.read.map (withLimit limit) := by
  unfold read
  have hready : (if (m.withLimit limit).input.needsByte = true then (m.withLimit limit).flush
      else .running (m.withLimit limit)) =
        (if m.input.needsByte = true then m.flush else .running m).map (withLimit limit) := by
    rw [flush_withLimit]
    by_cases hn : m.input.needsByte = true
    · rw [if_pos hn]
      exact if_pos hn
    · rw [if_neg hn]
      exact if_neg hn
  dsimp only
  rw [hready]
  apply Progress.map_andThen
  intro m'
  dsimp only [withLimit]
  cases m'.input.readBit <;> rfl

theorem execute_withLimit (op : BitOp) :
    (m.withLimit limit).execute op = (m.execute op).map (withLimit limit) := by
  unfold execute
  cases op with
  | read =>
    dsimp only
    rw [read_withLimit]
    exact Progress.map_andThen fun _ => rfl
  | write bit =>
    dsimp only
    rw [write_withLimit]
    exact Progress.map_andThen fun _ => rfl

theorem dispatch_withLimit (id : UInt32) :
    (m.withLimit limit).dispatch id = (m.dispatch id).map (withLimit limit) := by
  unfold dispatch
  show (announce (withLimit limit { m with focus := m.spine.nearest, spine := m.spine.clear }) id
    m.spine.nearest).andThen _ = _
  rw [announce_withLimit]
  apply Progress.map_andThen
  intro m'
  cases BitOp.ofAtomId? id with
  | none => exact stop_withLimit limit m' _
  | some op => exact execute_withLimit limit m' op

end

section
variable {limit : Option Nat} {m m' : Machine}

theorem step_withLimit (h : m.isOutOfSteps = false)
    (h' : (m.withLimit limit).isOutOfSteps = false) :
    (m.withLimit limit).step = m.step.map (withLimit limit) := by
  unfold step
  rw [h, h']
  by_cases hb : m.focus.binders ≠ 0
  · have hb' : (m.withLimit limit).focus.binders ≠ 0 := hb
    simp only [Bool.false_eq_true, if_false, if_pos hb, if_pos hb']
    rw [beta_withLimit]
    cases m.beta <;> rfl
  · have hb' : ¬ (m.withLimit limit).focus.binders ≠ 0 := hb
    simp only [Bool.false_eq_true, if_false, if_neg hb, if_neg hb']
    rw [show (m.withLimit limit).focus = m.focus from rfl]
    cases m.focus with
    | var binders index => exact stop_withLimit limit m _
    | atom binders id => exact dispatch_withLimit limit m id
    | app binders range func arg => rfl

end

/-! ## What has been written stays -/

end Machine

structure Sink.Grows (s s' : Sink) : Prop where
  bytes : s.bytes.toList <+: s'.bytes.toList
  flushes : s.flushes.toList <+: s'.flushes.toList
  flushLimit : s'.flushLimit = s.flushLimit

namespace Sink

theorem Grows.refl (s : Sink) : s.Grows s := ⟨List.prefix_refl _, List.prefix_refl _, rfl⟩

theorem Grows.trans {s₁ s₂ s₃ : Sink} (h : s₁.Grows s₂) (h' : s₂.Grows s₃) : s₁.Grows s₃ :=
  ⟨h.bytes.trans h'.bytes, h.flushes.trans h'.flushes, h'.flushLimit.trans h.flushLimit⟩

theorem grows_write (s : Sink) (data : Array UInt8) : s.Grows (s.write data).2 := by
  unfold write
  by_cases h : s.room data.size = data.size
  · simp only [if_pos h]
    exact ⟨by simp, List.prefix_refl _, rfl⟩
  · simp only [if_neg h]
    exact ⟨by simp, List.prefix_refl _, rfl⟩

theorem grows_flush (s : Sink) : s.Grows s.flush.2 := by
  unfold flush
  by_cases h : s.flushLimit.all (s.flushes.size < ·) = true
  · simp only [if_pos h]
    exact ⟨List.prefix_refl _, by simp, rfl⟩
  · simp only [if_neg h]
    exact .refl s

end Sink

theorem Output.grows_writeBit (output : Output) (bit : Bool) :
    output.sink.Grows (output.writeBit bit).2.sink := by
  unfold writeBit
  by_cases h : (output.bits ++ [bit]).length < 8
  · simp only [if_pos h]
    exact .refl _
  · simp only [if_neg h]
    have hw := output.sink.grows_write #[Byte.ofBits (output.bits ++ [bit])]
    by_cases ht : (output.sink.write #[Byte.ofBits (output.bits ++ [bit])]).1 = true
    · simp only [if_pos ht]
      exact hw
    · simp only [if_neg ht]
      exact hw

namespace Machine

/-- No step has been counted from `m` to `m'`, and what had been written is there. -/
structure Writes (m m' : Machine) : Prop where
  settings : m'.settings = m.settings
  tally : m'.tally = m.tally
  sink : m.output.sink.Grows m'.output.sink

structure Counts (m m' : Machine) : Prop where
  settings : m'.settings = m.settings
  steps : m'.tally.steps = m.tally.steps + 1
  sink : m.output.sink.Grows m'.output.sink

theorem Writes.trans {m₁ m₂ m₃ : Machine} (h : m₁.Writes m₂) (h' : m₂.Writes m₃) : m₁.Writes m₃ :=
  ⟨h'.settings.trans h.settings, h'.tally.trans h.tally, h.sink.trans h'.sink⟩

theorem Writes.counts {m₁ m₂ m₃ : Machine} (h : m₁.Writes m₂) (h' : m₂.Counts m₃) :
    m₁.Counts m₃ := by
  refine ⟨h'.settings.trans h.settings, ?_, h.sink.trans h'.sink⟩
  rw [h'.steps, h.tally]

section
variable (m : Machine)

theorem writes_flush : m.flush.Sat m.Writes fun _ => m.Writes := by
  have hsink := m.output.sink.grows_flush
  unfold flush
  rcases h : m.output.sink.flush with ⟨done, sink⟩
  rw [h] at hsink
  cases done with
  | true => exact ⟨rfl, rfl, hsink⟩
  | false => exact ⟨rfl, rfl, hsink⟩

theorem writes_stop (e : Ending) : (m.stop e).Sat (fun _ => False)
    fun e' m' => m.Writes m' ∧ (e' = e ∨ e' = .failed .flushRefused) := by
  have hflush : m.flush.Sat m.Writes
      fun e' m' => m.Writes m' ∧ (e' = e ∨ e' = .failed .flushRefused) := by
    have hwrites := writes_flush m
    obtain ⟨output, h | h⟩ := onlyOutput_flush m
    · rw [h] at hwrites ⊢
      exact hwrites
    · rw [h] at hwrites ⊢
      exact ⟨hwrites, .inr rfl⟩
  exact hflush.andThen fun _ h => ⟨h, .inl rfl⟩

theorem writes_announce (id : UInt32) (t : Term) :
    (m.announce id t).Sat m.Writes fun _ => m.Writes := by
  unfold announce
  by_cases ht : m.settings.trace = true
  · rw [if_pos ht]
    dsimp only
    generalize "operation " ++ _ ++ _ ++ _ ++ _ = line
    have hsink := m.output.sink.grows_write line.toUTF8.data
    rcases h : m.output.sink.write line.toUTF8.data with ⟨taken, sink⟩
    rw [h] at hsink
    cases taken with
    | true => exact ⟨rfl, rfl, hsink⟩
    | false => exact ⟨rfl, rfl, hsink⟩
  · rw [if_neg ht]
    exact ⟨rfl, rfl, .refl _⟩

theorem writes_write (bit : Bool) : (m.write bit).Sat m.Writes fun _ => m.Writes := by
  have hsink := m.output.grows_writeBit bit
  unfold write
  rcases h : m.output.writeBit bit with ⟨taken, output⟩
  rw [h] at hsink
  cases taken with
  | true => exact ⟨rfl, rfl, hsink⟩
  | false => exact ⟨rfl, rfl, hsink⟩

theorem writes_read : m.read.Sat m.Writes fun _ => m.Writes := by
  unfold read
  have hready : (if m.input.needsByte then m.flush else .running m).Sat m.Writes
      fun _ => m.Writes := by
    by_cases hn : m.input.needsByte = true
    · rw [if_pos hn]
      exact writes_flush m
    · rw [if_neg hn]
      exact ⟨rfl, rfl, .refl _⟩
  refine hready.andThen ?_
  intro m' hm'
  cases m'.input.readBit with
  | ok => exact ⟨hm'.settings, hm'.tally, hm'.sink⟩
  | error => exact hm'

theorem counts_execute (op : BitOp) : (m.execute op).Sat m.Counts fun _ => m.Writes := by
  unfold execute
  refine Progress.Sat.andThen (R := m.Writes) ?_ ?_
  · cases op with
    | read => exact writes_read m
    | write bit => exact writes_write m bit
  · intro m' hm'
    refine ⟨hm'.settings, ?_, hm'.sink⟩
    simp only [Tally.steps, hm'.tally]
    omega

theorem counts_dispatch (id : UInt32) : (m.dispatch id).Sat m.Counts fun _ => m.Writes := by
  unfold dispatch
  refine Progress.Sat.andThen (R := m.Writes) ?_ ?_
  · refine (writes_announce _ id _).mono ?_ ?_
    · intro m' hm'
      exact ⟨hm'.settings, hm'.tally, hm'.sink⟩
    · intro _ m' hm'
      exact ⟨hm'.settings, hm'.tally, hm'.sink⟩
  · intro m' hm'
    cases BitOp.ofAtomId? id with
    | some op =>
      refine (counts_execute m' op).mono ?_ ?_
      · intro m'' h
        exact hm'.counts h
      · intro _ m'' h
        exact hm'.trans h
    | none =>
      refine (writes_stop m' _).mono (fun _ h => h.elim) ?_
      intro _ m'' h
      exact hm'.trans h.1

theorem counts_beta {m' : Machine} (h : m.beta = .ok m') : m.Counts m' := by
  obtain ⟨focus, spine, placeholders, rfl⟩ := beta_changes h
  refine ⟨rfl, ?_, .refl _⟩
  simp only [Tally.steps]
  omega

theorem counts_step : m.step.Sat m.Counts fun _ => m.Writes := by
  rcases m.step_cases with ⟨_, hs⟩ | ⟨_, hs⟩
  · rw [hs]
    exact (writes_stop m _).mono (fun _ h => h.elim) fun _ _ h => h.1
  rcases hs with ⟨_, hs⟩ | ⟨range, func, arg, _, hs⟩ | ⟨id, _, hs⟩ | ⟨index, _, hs⟩
  · rw [hs]
    cases hb : m.beta with
    | error => trivial
    | ok m' => exact counts_beta m hb
  · rw [hs]
    refine ⟨rfl, ?_, .refl _⟩
    simp only [unwind, Tally.steps]
    omega
  · rw [hs]
    exact counts_dispatch m id
  · rw [hs]
    exact (writes_stop m _).mono (fun _ h => h.elim) fun _ _ h => h.1

end

/-! ## Runs -/

section
variable {m m' : Machine} {n : Nat}

theorem counts_run (k : Nat) :
    (run k m).Sat (fun m' => m'.settings = m.settings ∧ m'.tally.steps = m.tally.steps + k ∧
      m.output.sink.Grows m'.output.sink) fun _ m' => m.output.sink.Grows m'.output.sink := by
  induction k generalizing m with
  | zero => exact ⟨rfl, rfl, .refl _⟩
  | succ k ih =>
    rw [run_succ]
    refine (m.counts_step.mono (fun _ h => h) fun _ _ h => h.sink).andThen ?_
    intro m₁ h₁
    refine ih.mono ?_ ?_
    · intro m₂ h₂
      refine ⟨h₂.1.trans h₁.settings, ?_, h₁.sink.trans h₂.2.2⟩
      rw [h₂.2.1, h₁.steps]
      omega
    · intro _ m₂ h₂
      exact h₁.sink.trans h₂

theorem isOutOfSteps_eq_false_iff :
    m.isOutOfSteps = false ↔ ∀ l ∈ m.settings.maxSteps, m.tally.steps < l := by
  unfold isOutOfSteps
  cases m.settings.maxSteps <;> simp

theorem run_withLimit (hn : ∀ l ∈ m.settings.maxSteps, n ≤ l) (k : Nat)
    (hk : m.tally.steps + k ≤ n) :
    run k (m.withLimit (some n)) = (run k m).map (withLimit (some n)) := by
  induction k generalizing m with
  | zero => rfl
  | succ k ih =>
    have hgo : m.isOutOfSteps = false := by
      rw [isOutOfSteps_eq_false_iff]
      intro l hl
      have := hn l hl
      omega
    have hgo' : (m.withLimit (some n)).isOutOfSteps = false := by
      rw [isOutOfSteps_eq_false_iff]
      intro l hl
      cases hl
      show m.tally.steps < n
      omega
    rw [run_succ, run_succ, step_withLimit hgo hgo']
    have hcounts := m.counts_step
    cases hs : m.step with
    | ended => rfl
    | faulted => rfl
    | running m₁ =>
      rw [hs] at hcounts
      have hsteps := hcounts.steps
      refine ih ?_ (by omega)
      rw [hcounts.settings]
      exact hn

theorem run_of_isOver {p : Progress} {k : Nat} (h : run k m = p) (hp : p.isOver = true) (j : Nat) :
    run (k + j) m = p := by
  rw [run_add, h]
  cases p with
  | running => cases hp
  | ended => rfl
  | faulted => rfl

theorem run_eq_of_isOver {j k : Nat} (hj : (run j m).isOver = true) (hk : (run k m).isOver = true) :
    run j m = run k m := by
  rw [← run_of_isOver rfl hj k, ← run_of_isOver rfl hk j, Nat.add_comm]

def flushed (m : Machine) : Machine :=
  { m with output := { m.output with sink := { m.output.sink with
      flushes := m.output.sink.flushes.push m.output.sink.bytes.size } } }

theorem step_of_isOutOfSteps (h : m.isOutOfSteps = true) (hf : m.output.sink.flushLimit = none) :
    m.step = .ended .outOfSteps m.flushed := by
  have hsink : m.output.sink.flush = (true, m.flushed.output.sink) := by
    simp [Sink.flush, hf, flushed]
  rw [step, if_pos h, stop, flush, hsink]
  rfl

theorem step_of_isOutOfSteps_sat (h : m.isOutOfSteps = true) : m.step.Sat (fun _ => False)
    fun e m' => m.Writes m' ∧ (e = .outOfSteps ∨ e = .failed .flushRefused) := by
  rw [step, if_pos h]
  exact writes_stop m _

theorem exists_isOver_run (m : Machine) (hn : m.settings.maxSteps = some n) :
    ∃ k, (run k m).isOver = true := by
  have hcounts := counts_run (m := m) n
  cases hr : run n m with
  | ended => exact ⟨n, by rw [hr]; rfl⟩
  | faulted => exact ⟨n, by rw [hr]; rfl⟩
  | running m₁ =>
    rw [hr] at hcounts
    have hout : m₁.isOutOfSteps = true := by
      rw [isOutOfSteps, hcounts.1, hn, Option.any_some, decide_eq_true_eq, hcounts.2.1]
      omega
    refine ⟨n + 1, ?_⟩
    have hstep := step_of_isOutOfSteps_sat hout
    rw [run_add, hr]
    show (run 1 m₁).isOver = true
    rw [run_succ]
    cases hs : m₁.step with
    | running => rw [hs] at hstep; exact hstep.elim
    | ended => rfl
    | faulted => rfl

theorem steps_lt_of_ended {k : Nat} {e : Ending} (h : run k m = .ended e m')
    (hn : m.settings.maxSteps = some n)
    (he : (∃ atom whnf, e = .halted atom whnf) ∨ ∃ index, e = .stuck index) :
    m'.tally.steps < n := by
  induction k generalizing m with
  | zero => cases h
  | succ k ih =>
    rw [run_succ] at h
    have hcounts := m.counts_step
    cases hs : m.step with
    | faulted => rw [hs] at h; cases h
    | running m₁ =>
      rw [hs] at h hcounts
      exact ih h (by rw [hcounts.settings, hn])
    | ended e' m₁ =>
      rw [hs] at h hcounts
      cases h
      rw [hcounts.tally]
      by_cases hout : m.isOutOfSteps = true
      · -- the limit ends a run in another way
        have hstep := step_of_isOutOfSteps_sat hout
        rw [hs] at hstep
        obtain ⟨_, rfl | rfl⟩ := hstep <;> simp at he
      · exact isOutOfSteps_eq_false_iff.mp (Bool.eq_false_iff.mpr hout) n hn

/-- What a run leaves behind that is cut off after `n` steps, beside a run of `m` that is not. -/
structure Cut (n : Nat) (m m₁ : Machine) : Prop where
  steps : m₁.tally.steps = n
  flushed : m₁.output.sink.flushes.toList.getLast? = some m₁.output.sink.bytes.size
  bytes_prefix : ∀ k m₂, n ≤ k → (run k m).machine? = some m₂ →
    m₁.output.sink.bytes.toList <+: m₂.output.sink.bytes.toList
  flushes_prefix : ∀ k m₂, n ≤ k → (run k m).machine? = some m₂ →
    m₁.output.sink.flushes.toList.dropLast <+: m₂.output.sink.flushes.toList

theorem exists_cut {m₁ : Machine} (h : run n m = .running m₁) (hm : m.tally.steps = 0)
    (hn : ∀ l ∈ m.settings.maxSteps, n ≤ l) (hf : m.output.sink.flushLimit = none) :
    ∃ m₂, run (n + 1) (m.withLimit (some n)) = .ended .outOfSteps m₂ ∧ Cut n m m₂ := by
  have hcounts := counts_run (m := m) n
  rw [h] at hcounts
  obtain ⟨-, hsteps, hsink⟩ := hcounts
  have hout : (m₁.withLimit (some n)).isOutOfSteps = true := by
    show decide (n ≤ m₁.tally.steps) = true
    rw [decide_eq_true_eq, hsteps]
    omega
  have hstep := step_of_isOutOfSteps hout (hsink.flushLimit.trans hf)
  have hlater : ∀ k m₂, n ≤ k → (run k m).machine? = some m₂ →
      m₁.output.sink.Grows m₂.output.sink := by
    intro k m₂ hk hm₂
    have hrest := counts_run (m := m₁) (k - n)
    rw [show k = n + (k - n) by omega, run_add, h] at hm₂
    change (run (k - n) m₁).machine? = some m₂ at hm₂
    cases hr : run (k - n) m₁ with
    | running => rw [hr] at hm₂ hrest; cases hm₂; exact hrest.2.2
    | ended => rw [hr] at hm₂ hrest; cases hm₂; exact hrest
    | faulted => rw [hr] at hm₂; cases hm₂
  refine ⟨(m₁.withLimit (some n)).flushed, ?_, ?_⟩
  · rw [run_add, run_withLimit hn n (by omega), h]
    show run 1 (m₁.withLimit (some n)) = _
    rw [run_succ, hstep]
    rfl
  · refine ⟨?_, ?_, ?_, ?_⟩
    · show m₁.tally.steps = n
      omega
    · simp [flushed, withLimit]
    · intro k m₂ hk hm₂
      exact (hlater k m₂ hk hm₂).bytes
    · intro k m₂ hk hm₂
      simpa [flushed, withLimit] using (hlater k m₂ hk hm₂).flushes

end

/-- **A limit cuts a run and does nothing else.** A run with a limit ends. With any larger limit, or
with none, the run is in the same states up to there: either the smaller limit cuts it off then, or
both runs have ended alike, by a fault too. -/
theorem limit_cuts_run (trace : Bool) (program : Term) (deliveries : List Delivery) (n : Nat) :
    let m limit := start ⟨trace, limit⟩ program (.ofDeliveries deliveries) (.limited none none)
    (∃ k, (run k (m (some n))).isOver = true) ∧
    (∀ limit : Option Nat, (∀ l ∈ limit, n ≤ l) →
      (∀ j ≤ n, run j (m (some n)) = (run j (m limit)).map (withLimit (some n))) ∧
      ∀ k, (run k (m limit)).isOver = true →
        (∃ j m₁, run j (m (some n)) = .ended .outOfSteps m₁ ∧ Cut n (m limit) m₁) ∨
        ∃ j, run j (m (some n)) = (run k (m limit)).map (withLimit (some n))) ∧
    ∀ k e m₁, run k (m (some n)) = .ended e m₁ →
      ((∃ atom whnf, e = .halted atom whnf) ∨ ∃ index, e = .stuck index) →
        m₁.tally.steps < n := by
  intro m
  refine ⟨exists_isOver_run _ rfl, ?_, ?_⟩
  · intro limit hlimit
    have hzero : (m limit).tally.steps = 0 := rfl
    have hstates : ∀ j ≤ n, run j (m (some n)) = (run j (m limit)).map (withLimit (some n)) := by
      intro j hj
      exact run_withLimit (m := m limit) hlimit j (by rwa [hzero, Nat.zero_add])
    refine ⟨hstates, fun k hk => ?_⟩
    have hsame := hstates n (Nat.le_refl n)
    by_cases hover : (run n (m limit)).isOver = true
    · refine .inr ⟨n, ?_⟩
      rw [hsame, run_eq_of_isOver hover hk]
    · cases hr : run n (m limit) with
      | running m₁ =>
        obtain ⟨m₂, hrun, hcut⟩ := exists_cut hr rfl hlimit rfl
        exact .inl ⟨n + 1, m₂, hrun, hcut⟩
      | ended => rw [hr] at hover; exact absurd rfl hover
      | faulted => rw [hr] at hover; exact absurd rfl hover
  · intro k e m₁ hrun he
    exact steps_lt_of_ended hrun rfl he

theorem limit_cuts_run_echo :
    let program := ((Term.var 0 2).apply (((((Term.var 0 0).apply (.var 0 1)).apply
      (.var 0 2)).apply (.var 0 4)).withBinders 1)).withBinders 4
    let m limit := start ⟨true, limit⟩ program (.ofDeliveries [.interrupted, .byte 0xA5])
      (.limited none none)
    (∀ l ∈ (none : Option Nat), 4 ≤ l) ∧
      (∀ j ≤ 4, run j (m (some 4)) = (run j (m none)).map (withLimit (some 4))) ∧
      (run 10 (m none)).isOver = true ∧
      ∃ j m₁, run j (m (some 4)) = .ended .outOfSteps m₁ ∧ Cut 4 (m none) m₁ := by
  -- a program that reads a bit, writes it and halts in its tenth step, so four steps are too few
  intro program m
  have hlimit : ∀ l ∈ (none : Option Nat), 4 ≤ l := by simp
  have hend : (match run 10 (m none) with
      | .ended (.halted _ _) m₁ => m₁.tally.steps == 9
      | _ => false) = true := by
    dsimp only [m, program]
    decide +kernel
  cases hrun : run 10 (m none) with
  | running => rw [hrun] at hend; cases hend
  | faulted => rw [hrun] at hend; cases hend
  | ended e m₁ =>
    rw [hrun] at hend
    have hover : (run 10 (m none)).isOver = true := by rw [hrun]; rfl
    obtain ⟨-, hcuts, hlt⟩ :=
      limit_cuts_run true program [.interrupted, .byte 0xA5] 4
    obtain ⟨hstates, hcut⟩ := hcuts none hlimit
    refine ⟨hlimit, hstates, rfl, ?_⟩
    refine (hcut 10 hover).resolve_right ?_
    intro hsame
    obtain ⟨j, hj⟩ := hsame
    cases e with
    | halted atom whnf =>
      have hsteps : m₁.tally.steps = 9 := beq_iff_eq.mp hend
      rw [hrun] at hj
      have hfour : (m₁.withLimit (some 4)).tally.steps < 4 := hlt j _ _ hj (.inl ⟨_, _, rfl⟩)
      change m₁.tally.steps < 4 at hfour
      omega
    | stuck => cases hend
    | outOfSteps => cases hend
    | failed => cases hend

end Machine

end WeakHead
