import WeakHead.Machine
import WeakHead.Proofs.SpineList

/-!
# Transitions of the machine

What one step can do, told once: which rule the focus selects, what `beta`
takes off the spine and which operations touch nothing but the output. An
invariant that every step keeps is then kept by every run.
-/

namespace WeakHead

namespace Progress

/-- The machine that is left satisfies `R` if it goes on and `E`, with the ending, if it does not.
Nothing is said of a fault. -/
def Sat (R : Machine → Prop) (E : Ending → Machine → Prop) : Progress → Prop
  | .running m => R m
  | .ended ending m => E ending m
  | .faulted _ => True

section
variable {R R' : Machine → Prop} {E E' : Ending → Machine → Prop} {p : Progress}

theorem Sat.andThen {next : Machine → Progress} (hp : p.Sat R E)
    (hn : ∀ m, R m → (next m).Sat R' E) : (p.andThen next).Sat R' E := by
  cases p with
  | running m => exact hn m hp
  | ended => exact hp
  | faulted => trivial

theorem Sat.mono (hp : p.Sat R E) (hR : ∀ m, R m → R' m) (hE : ∀ e m, E e m → E' e m) :
    p.Sat R' E' := by
  cases p with
  | running m => exact hR m hp
  | ended e m => exact hE e m hp
  | faulted => trivial

end

end Progress

namespace Machine

/-! ## Runs -/

theorem run_succ (n : Nat) (m : Machine) : run (n + 1) m = m.step.andThen (run n) := by
  rw [run]
  cases m.step <;> rfl

theorem run_add (k n : Nat) (m : Machine) : run (k + n) m = (run k m).andThen (run n) := by
  induction k generalizing m with
  | zero => rw [Nat.zero_add]; rfl
  | succ k ih =>
    rw [Nat.succ_add, run_succ, run_succ]
    cases m.step with
    | running m' => exact ih m'
    | ended => rfl
    | faulted => rfl

theorem not_faulted_of_ended {k : Nat} {m m' : Machine} {e : Ending} (h : run k m = .ended e m')
    (n : Nat) (fault : Fault) : run n m ≠ .faulted fault := by
  intro hn
  have hk := run_add k n m
  rw [Nat.add_comm, run_add n k m, hn, h] at hk
  cases hk

theorem run_sat {I : Machine → Prop} {E : Ending → Machine → Prop}
    (hstep : ∀ m, I m → m.step.Sat I E) {m : Machine} (hm : I m) (n : Nat) : (run n m).Sat I E := by
  induction n generalizing m with
  | zero => exact hm
  | succ n ih =>
    rw [run_succ]
    exact (hstep m hm).andThen fun m' hm' => ih hm'

/-! ## Rules -/

theorem step_cases (m : Machine) :
    (m.isOutOfSteps = true ∧ m.step = m.stop .outOfSteps) ∨
    (m.isOutOfSteps = false ∧
      ((m.focus.binders ≠ 0 ∧ m.step = .ofChecked m.beta) ∨
        (∃ range func arg, m.focus = .app 0 range func arg ∧
          m.step = .running (m.unwind func arg)) ∨
        (∃ id, m.focus = .atom 0 id ∧ m.step = m.dispatch id) ∨
        (∃ index, m.focus = .var 0 index ∧ m.step = m.stop (.stuck index)))) := by
  cases ho : m.isOutOfSteps with
  | true => exact .inl ⟨rfl, by rw [step, if_pos ho]⟩
  | false =>
    have ho' : ¬ m.isOutOfSteps = true := by rw [ho]; decide
    refine .inr ⟨rfl, ?_⟩
    by_cases hb : m.focus.binders ≠ 0
    · exact .inl ⟨hb, by rw [step, if_neg ho', if_pos hb]⟩
    have hzero : m.focus.binders = 0 := Decidable.not_not.mp hb
    refine .inr ?_
    cases hf : m.focus with
    | app binders range func arg =>
      rw [hf] at hzero
      refine .inl ⟨range, func, arg, by rw [show binders = 0 from hzero], ?_⟩
      rw [step, if_neg ho', if_neg hb, hf]
    | atom binders id =>
      rw [hf] at hzero
      refine .inr (.inl ⟨id, by rw [show binders = 0 from hzero], ?_⟩)
      rw [step, if_neg ho', if_neg hb, hf]
    | var binders index =>
      rw [hf] at hzero
      refine .inr (.inr ⟨index, by rw [show binders = 0 from hzero], ?_⟩)
      rw [step, if_neg ho', if_neg hb, hf]

/-! ## Output -/

def OnlyOutput (m : Machine) (cause : StreamFailure) (p : Progress) : Prop :=
  ∃ output, p = .running { m with output := output } ∨
    p = .ended (.failed cause) { m with output := output }

section
variable {m : Machine} {cause : StreamFailure} {p : Progress}

theorem OnlyOutput.sat (h : m.OnlyOutput cause p) {R : Machine → Prop}
    {E : Ending → Machine → Prop} (hR : ∀ output, R { m with output := output })
    (hE : ∀ output, E (.failed cause) { m with output := output }) : p.Sat R E := by
  obtain ⟨output, rfl | rfl⟩ := h
  · exact hR output
  · exact hE output

end

theorem onlyOutput_flush (m : Machine) : m.OnlyOutput .flushRefused m.flush := by
  unfold flush
  rcases m.output.sink.flush with ⟨done, sink⟩
  cases done with
  | true => exact ⟨_, .inl rfl⟩
  | false => exact ⟨_, .inr rfl⟩

theorem onlyOutput_ready (m : Machine) :
    m.OnlyOutput .flushRefused (if m.input.needsByte then m.flush else .running m) := by
  by_cases hn : m.input.needsByte = true
  · rw [if_pos hn]
    exact onlyOutput_flush m
  · rw [if_neg hn]
    exact ⟨m.output, .inl rfl⟩

theorem onlyOutput_announce (m : Machine) (id : UInt32) (argument : Term) :
    m.OnlyOutput .sinkFull (m.announce id argument) := by
  unfold announce
  by_cases ht : m.settings.trace = true
  · rw [if_pos ht]
    dsimp only
    generalize m.output.sink.write _ = written
    rcases written with ⟨taken, sink⟩
    cases taken with
    | true => exact ⟨_, .inl rfl⟩
    | false => exact ⟨_, .inr rfl⟩
  · rw [if_neg ht]
    exact ⟨m.output, .inl rfl⟩

theorem onlyOutput_write (m : Machine) (bit : Bool) : m.OnlyOutput .sinkFull (m.write bit) := by
  unfold write
  rcases m.output.writeBit bit with ⟨taken, output⟩
  cases taken with
  | true => exact ⟨_, .inl rfl⟩
  | false => exact ⟨_, .inr rfl⟩

/-! ## Taking arguments -/

def filled (m : Machine) (ts : List Term) (n : Nat) : List Term :=
  (m.placeholders.take (n - ts.length)).1 ++ ts

theorem length_take_placeholders (p : Placeholders) (n : Nat) : (p.take n).1.length = n := by
  cases p <;> simp [Placeholders.take]

section
variable {m m' : Machine} {ts : List Term}

theorem length_filled (m : Machine) (ts : List Term) (n : Nat) :
    (m.filled ts n).length = max n ts.length := by
  rw [filled, List.length_append, length_take_placeholders]
  omega

theorem fillSpine_eq (h : m.spine.Holds ts) (n : Nat) :
    ∃ s : Spine, s.Holds (m.filled ts n) ∧
      m.fillSpine n =
        { m with spine := s, placeholders := (m.placeholders.take (n - ts.length)).2 } := by
  unfold fillSpine filled
  rw [h.size_eq]
  by_cases hn : n - ts.length = 0
  · have htake : m.placeholders.take 0 = ([], m.placeholders) := by
      cases hp : m.placeholders <;> simp [Placeholders.take]
    rw [hn, if_pos rfl, htake]
    exact ⟨m.spine, h, rfl⟩
  · have hlen := length_take_placeholders m.placeholders (n - ts.length)
    refine ⟨_, ?_, by rw [if_neg hn]⟩
    have hroom : (m.placeholders.take (n - ts.length)).1.length ≤
        (List.replicate (n - ts.length) Term.nil ++ ts).length := by
      rw [hlen, List.length_append, List.length_replicate]
      omega
    have hres := (h.reserveFront (n - ts.length)).overwriteFront hroom
    rwa [hlen, List.drop_left' List.length_replicate] at hres

theorem beta_eq_ok (h : m.spine.Holds ts) (hb : m.beta = .ok m') :
    ∃ (focus : Term) (s : Spine),
      m.focus.body.instantiate ((m.filled ts m.focus.binders.toNat).drop
        (ts.length - m.focus.binders.toNat)).toArray = .ok focus ∧
      s.Holds ((m.filled ts m.focus.binders.toNat).take (ts.length - m.focus.binders.toNat)) ∧
      m' = { m with
        focus := focus
        spine := s
        placeholders := (m.placeholders.take (m.focus.binders.toNat - ts.length)).2
        tally := { m.tally with betas := m.tally.betas + 1 } } := by
  generalize hn : m.focus.binders.toNat = n at *
  obtain ⟨s, hs, hfill⟩ := fillSpine_eq h n
  have hlen := length_filled m ts n
  have hrest : (m.filled ts n).length - n = ts.length - n := by omega
  have hback : s.back n = .ok ((m.filled ts n).drop (ts.length - n)).toArray := by
    rw [hs.back (by rw [hs.stop_eq]; omega), hrest,
      Nat.sub_eq_zero_of_le (show n ≤ (m.filled ts n).length by omega)]
    rfl
  obtain ⟨s', hdrop, hs'⟩ := hs.dropBack (show n ≤ (m.filled ts n).length by omega)
  rw [hrest] at hs'
  unfold beta at hb
  simp only [hn, hfill, hback, hdrop, Checked.bind_eq_ok_iff, Except.ok.injEq] at hb
  obtain ⟨_, rfl, focus, hfocus, _, rfl, hm'⟩ := hb
  cases hm'
  exact ⟨focus, s', hfocus, hs', rfl⟩

end

end Machine

end WeakHead
