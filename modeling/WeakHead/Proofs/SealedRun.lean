import WeakHead.Proofs.Substitution
import WeakHead.Proofs.TermInvariants
import WeakHead.Proofs.Parsing

/-!
# Runs of closed programs

Instantiation inserts a value as it is, so a loose index in one argument
would be captured later on. A machine that starts on a sealed program keeps
its focus and all its arguments sealed, whatever its streams do. Programs that
are read from a text are sealed, so none of their runs comes to a loose
variable.
-/

namespace WeakHead

def Machine.Sealed (m : Machine) : Prop :=
  m.focus.Sealed ∧ ∃ ts, m.spine.Holds ts ∧ ∀ t ∈ ts, t.Sealed

def Ending.Sealed : Ending → Prop
  | .halted _ whnf => whnf.Sealed
  | .stuck _ => False
  | .outOfSteps => True
  | .failed _ => True

theorem handedOn_sealed : HandedOn fun _ => Term.Sealed where
  atom _ id := Term.sealed_atom id
  ofBit _ bit := Term.sealed_ofBit bit
  func h := h.func
  arg h := h.arg
  later h := h
  instantiate {_ t _ _} ht hv hsize h := by
    refine Term.sealed_instantiate (Term.coherent_withBinders.mpr ht.coherent)
      (Term.indicesSmall_withBinders.mpr ht.indicesSmall) ?_ hv h
    -- there is an argument for each binder of the focus
    have hbody := (Term.scopedUnder_iff_body 0).mp ht.closed
    rwa [Nat.zero_add, ← hsize] at hbody

theorem Ending.sealed_of_carries {e : Ending} (h : e.Carries Term.Sealed) : e.Sealed := by
  cases e with
  | halted id whnf => exact h
  | stuck index => exact absurd h.closed (by simp [Term.ScopedUnder])
  | outOfSteps => trivial
  | failed cause => trivial

namespace Machine

section
variable {m m' : Machine}

theorem Sealed.arguments (h : m.Sealed) : ∀ t ∈ m.spine.toList, t.Sealed := by
  obtain ⟨_, ts, hts, hall⟩ := h
  rwa [hts.toList_eq]

theorem sealed_start {settings : Settings} {program : Term} {input : Input} {sink : Sink}
    (h : program.Sealed) : (start settings program input sink).Sealed :=
  carries_start (P := fun _ => Term.Sealed) h

theorem sealed_push {t u : Term} {ts : List Term} (ht : t.Sealed) (hu : u.Sealed)
    (hs : m.spine.Holds ts) (hall : ∀ t ∈ ts, t.Sealed) :
    Sealed { m with focus := t, spine := m.spine.push u } :=
  carries_push (P := fun _ => Term.Sealed) ht hu hs hall

/-! ## Rules -/

theorem sealed_of_mem_take {p : Placeholders} {n : Nat} {t : Term} (h : t ∈ (p.take n).1) :
    t.Sealed :=
  handedOn_sealed.mem_take 0 h

theorem Sealed.beta (h : m.Sealed) (hb : m.beta = .ok m') : m'.Sealed := handedOn_sealed.beta h hb

theorem sealed_of_passes {p : Progress} (h : Passes (fun _ => Term.Sealed) p) :
    p.Sat Sealed fun e m => m.Sealed ∧ e.Sealed :=
  Progress.Sat.mono h (fun _ hm => hm) fun _ _ he => ⟨he.1, Ending.sealed_of_carries he.2⟩

theorem sealed_dispatch (h : m.Sealed) (id : UInt32) :
    (m.dispatch id).Sat Sealed fun e m => m.Sealed ∧ e.Sealed :=
  sealed_of_passes (handedOn_sealed.dispatch h id)

theorem sealed_run (h : m.Sealed) (n : Nat) :
    (run n m).Sat Sealed fun e m => m.Sealed ∧ e.Sealed :=
  sealed_of_passes (handedOn_sealed.run h n)

end

end Machine

/-! ## Programs that are read -/

theorem sealed_of_parse {file source : String} {program : Term}
    (hsize : source.utf8ByteSize < UInt32.size - 1) (h : parse file source = .ok (.ok program)) :
    program.Sealed := by
  obtain ⟨-, _, _, -, -, ht⟩ := exists_derives_of_parse hsize h
  exact ht.sealed

namespace Machine

theorem run_ne_stuck {m m' : Machine} (h : m.Sealed) (n : Nat) (index : UInt32) :
    run n m ≠ .ended (.stuck index) m' := by
  intro hrun
  have hend := sealed_run h n
  rw [hrun] at hend
  exact hend.2

/-- Runs of sealed programs meet sealed terms only, and all programs that are read are sealed. -/
theorem run_start_sealed :
    (∀ (settings : Settings) (program : Term) (input : Input) (sink : Sink), program.Sealed →
      ∀ n, (run n (start settings program input sink)).Sat
        (fun m => m.focus.Sealed ∧ ∀ t ∈ m.spine.toList, t.Sealed)
        fun e m => (m.focus.Sealed ∧ ∀ t ∈ m.spine.toList, t.Sealed) ∧
          (∀ index, e ≠ .stuck index) ∧
          ∀ atom whnf, e = .halted atom whnf → whnf.isClosed = true) ∧
    ∀ (file source : String) (program : Term), source.utf8ByteSize < UInt32.size - 1 →
      parse file source = .ok (.ok program) →
        program.Sealed ∧ ∀ settings input sink n index m,
          run n (start settings program input sink) ≠ .ended (.stuck index) m := by
  constructor
  · intro settings program input sink hp n
    refine (sealed_run (sealed_start hp) n).mono (fun m hm => ⟨hm.1, hm.arguments⟩) ?_
    rintro e m ⟨hm, he⟩
    refine ⟨⟨hm.1, hm.arguments⟩, ?_, ?_⟩
    · rintro index rfl
      exact he
    · rintro atom whnf rfl
      exact Term.Sealed.isClosed he
  · intro file source program hsize hparse
    have hp := sealed_of_parse hsize hparse
    exact ⟨hp, fun settings input sink n index m => run_ne_stuck (sealed_start hp) n index⟩

theorem run_start_sealed_failing :
    let program := Term.app 2 2 (.var 0 0) (.var 0 1)
    let m := start ⟨false, some 9⟩ program (.ofDeliveries [.failure "gone"]) (.limited none none)
    "\\n r. r n".utf8ByteSize < UInt32.size - 1 ∧
      parse "failing" "\\n r. r n" = .ok (.ok program) ∧
      program.Sealed ∧ (∀ n index m', run n m ≠ .ended (.stuck index) m') ∧
      ∃ n m', run n m = .ended (.failed (.input "gone")) m' ∧ m'.focus.Sealed ∧
        ∀ t ∈ m'.spine.toList, t.Sealed := by
  intro program m
  have hsize : "\\n r. r n".utf8ByteSize < UInt32.size - 1 := by decide
  have hparse : parse "failing" "\\n r. r n" =
      .ok (.ok (.app 2 2 (.var 0 0) (.var 0 1))) := rfl
  obtain ⟨hp, hstuck⟩ := run_start_sealed.2 "failing" _ program hsize hparse
  have hnever := hstuck ⟨false, some 9⟩ (.ofDeliveries [.failure "gone"]) (.limited none none)
  have hend : (match run 3 m with | .ended e _ => some e | _ => none) =
      some (.failed (.input "gone")) := by
    dsimp only [m, program]
    decide +kernel
  obtain ⟨n, m', hrun⟩ : ∃ n m', run n m = .ended (.failed (.input "gone")) m' := by
    cases hrun : run 3 m with
    | running => rw [hrun] at hend; cases hend
    | faulted => rw [hrun] at hend; cases hend
    | ended e m' =>
      rw [hrun] at hend
      cases hend
      exact ⟨3, m', hrun⟩
  have hsat := run_start_sealed.1 ⟨false, some 9⟩ program (.ofDeliveries [.failure "gone"])
    (.limited none none) hp n
  rw [hrun] at hsat
  exact ⟨hsize, hparse, hp, hnever, n, m', hrun, hsat.1⟩

end Machine

end WeakHead
