import WeakHead.Proofs.BinderBounds
import WeakHead.Proofs.Parsing
import WeakHead.Proofs.SealedRun
import WeakHead.Proofs.SlotwiseMachine
import WeakHead.Proofs.StepLimit

/-!
# Runs that cannot fail

Every binder of a program has a name in its text, and every variable below it
takes a token more, so a place in a program of `l` bytes is below fewer than
`l` binders. A run of at most `n` steps then never needs a word greater than
`l * (n + 2)`. If that is a word, the run comes to an end, and on the way every
access to a slot, every difference and every sum gives a result.
-/

namespace WeakHead

/-! ## How deep a program is -/

def Lambda.depth : Lambda → Nat
  | .var _ => 0
  | .atom _ => 0
  | .lam body => body.depth + 1
  | .app func arg => max func.depth arg.depth

theorem Lambda.depth_lams (n : Nat) (t : Lambda) : (lams n t).depth = n + t.depth := by
  induction n with
  | zero => simp
  | succ n ih =>
    rw [lams, depth, ih]
    omega

theorem Term.depth_unfuse (t : Term) : t.unfuse.depth = t.depth := by
  induction t with
  | var => rw [unfuse, Lambda.depth_lams, Lambda.depth, depth, Nat.add_zero]
  | atom => rw [unfuse, Lambda.depth_lams, Lambda.depth, depth, Nat.add_zero]
  | app _ _ _ _ ihf iha => rw [unfuse, Lambda.depth_lams, Lambda.depth, depth, ihf, iha]

namespace Named

def depth : Named → Nat
  | .name _ => 0
  | .apply func arg => max func.depth arg.depth
  | .lambda _ body => body.depth + 1

theorem depth_lambdas (names : List String) (m : Named) :
    (m.lambdas names).depth = names.length + m.depth := by
  induction names with
  | nil => simp [lambdas]
  | cons text names ih =>
    show (m.lambdas names).depth + 1 = _
    rw [ih, List.length_cons]
    omega

theorem depth_nameless {m : Named} {scope : List String} {l : Lambda}
    (h : m.nameless scope = some l) : l.depth = m.depth := by
  induction m generalizing scope l with
  | name text =>
    obtain ⟨index, -, rfl⟩ := Option.map_eq_some_iff.mp h
    rfl
  | apply func arg ihf iha =>
    obtain ⟨f, a, hf, ha, rfl⟩ := nameless_apply_eq_some_iff.mp h
    rw [Lambda.depth, depth, ihf hf, iha ha]
  | lambda text body ih =>
    obtain ⟨b, hb, rfl⟩ := Option.map_eq_some_iff.mp h
    rw [Lambda.depth, depth, ih hb]

end Named

theorem Derives.depth_lt {c : Category} {ts : List Token} {m : Named} (h : Derives c ts m) :
    m.depth < ts.length := by
  induction h with
  | name => simp [Named.depth]
  | group _ ih => simp; omega
  | operand _ ih => exact ih
  | argument _ _ ihf iha => simp [Named.depth]; omega
  | application _ ih => exact ih
  | abstraction _ ih => exact ih
  | lastArgument _ _ ihf iha => simp [Named.depth]; omega
  | binders _ ih => simp [Named.depth_lambdas]; omega

theorem depth_lt_of_parse {file source : String} {program : Term}
    (hsize : source.utf8ByteSize < UInt32.size - 1) (h : parse file source = .ok (.ok program)) :
    program.depth < source.utf8ByteSize := by
  obtain ⟨-, ts, m, hts, hm, ht⟩ := exists_derives_of_parse hsize h
  have hdepth : program.depth = m.depth := by
    rw [← Term.depth_unfuse, Named.depth_nameless ht.nameless_eq]
  have htokens := hm.depth_lt
  rw [List.length_map] at htokens
  calc program.depth = m.depth := hdepth
    _ < ts.length := htokens
    _ ≤ source.toList.length := hts.length_le
    _ ≤ source.utf8ByteSize := length_toList_le source

/-! ## Runs of a program -/

namespace Machine

structure Bounded (p n : Nat) (m : Machine) : Prop where
  carries : m.Carries fun k t => t.Sealed ∧ t.Fits p (valueBound p k) 0
  regular : ∃ ts, m.spine.Regular ts
  limit : m.settings.maxSteps = some n

section
variable {m : Machine} {p n : Nat}

theorem bounded_start {program : Term} (hp : program.Sealed) (trace : Bool) (input : Input)
    (sink : Sink) : (start ⟨trace, some n⟩ program input sink).Bounded program.depth n where
  carries := carries_start ⟨hp, Term.fits_of_depth (Nat.le_of_eq (Nat.zero_add _))⟩
  regular := ⟨[], Spine.regular_empty⟩
  limit := rfl

theorem Bounded.agrees_step (h : m.Bounded p n) (hsize : 2 + (n + 1) * p < UInt32.size) :
    Slotwise.Agrees m.step (Slotwise.step m) := by
  obtain ⟨ts, hts⟩ := h.regular
  refine Slotwise.agrees_step hts fun hgo => ?_
  refine exists_instantiate_of_carries h.carries ?_ hts.toHolds
  -- there have been fewer beta steps than steps
  have hsteps := isOutOfSteps_eq_false_iff.mp hgo n h.limit
  have hbetas : m.tally.betas + 1 ≤ n := by
    unfold Tally.steps at hsteps
    omega
  have hmul := Nat.mul_le_mul_right p hbetas
  rw [Nat.succ_mul] at hsize
  unfold valueBound
  omega

theorem Bounded.step (h : m.Bounded p n) (hsize : 2 + (n + 1) * p < UInt32.size) :
    m.step.Sat (Bounded p n) fun _ _ => True := by
  have hcarries := (handedOn_fits p).step h.carries
  have hsound := (h.agrees_step hsize).sound
  have hcounts := m.counts_step
  cases hs : m.step with
  | running m' =>
    rw [hs] at hcarries hsound hcounts
    exact ⟨hcarries, hsound, by rw [hcounts.settings]; exact h.limit⟩
  | ended => trivial
  | faulted => trivial

theorem Bounded.run (h : m.Bounded p n) (hsize : 2 + (n + 1) * p < UInt32.size) (k : Nat) :
    Slotwise.run k m = some (Machine.run k m) ∧ ∀ fault, Machine.run k m ≠ .faulted fault := by
  induction k generalizing m with
  | zero => exact ⟨rfl, fun _ hf => nomatch hf⟩
  | succ k ih =>
    have hagrees := h.agrees_step hsize
    have hstep := h.step hsize
    have hsound := hagrees.sound
    rw [Slotwise.run, hagrees.eq_some, run_succ]
    cases hs : m.step with
    | running m' =>
      rw [hs] at hstep
      exact ih hstep
    | ended => exact ⟨rfl, fun _ hf => nomatch hf⟩
    | faulted fault =>
      rw [hs] at hsound
      exact hsound.elim

end

/-- **Bounded runs cannot fail.** A run of a program of `l` bytes with at most `n` steps ends if
`l * (n + 2)` is a word, and slot by slot it is the same run, without a fault. -/
theorem run_start_bounded (file source : String) (program : Term)
    (hparse : parse file source = .ok (.ok program)) (n : Nat)
    (hsize : source.utf8ByteSize * (n + 2) < UInt32.size) (trace : Bool) (input : Input)
    (sink : Sink) :
    let m := start ⟨trace, some n⟩ program input sink
    (∃ k e m', run k m = .ended e m' ∧ Slotwise.run k m = some (.ended e m')) ∧
      ∀ k, Slotwise.run k m = some (run k m) ∧ ∀ fault, run k m ≠ .faulted fault := by
  intro m
  have hbytes : source.utf8ByteSize * 2 ≤ source.utf8ByteSize * (n + 2) :=
    Nat.mul_le_mul_left _ (by omega)
  have hsmall : source.utf8ByteSize < UInt32.size - 1 := by
    have : UInt32.size = 4294967296 := rfl
    omega
  have hdepth := depth_lt_of_parse hsmall hparse
  have hwords : 2 + (n + 1) * program.depth < UInt32.size := calc
    2 + (n + 1) * program.depth ≤ (program.depth + 1) * (n + 2) := by
      rw [Nat.succ_mul, Nat.add_mul, Nat.mul_add, Nat.mul_comm program.depth n]
      omega
    _ ≤ source.utf8ByteSize * (n + 2) := Nat.mul_le_mul_right _ hdepth
    _ < UInt32.size := hsize
  have hbounded : m.Bounded program.depth n :=
    bounded_start (sealed_of_parse hsmall hparse) trace input sink
  have hrun := hbounded.run hwords
  refine ⟨?_, hrun⟩
  obtain ⟨k, hover⟩ := exists_isOver_run m rfl
  obtain ⟨hslots, hfault⟩ := hrun k
  cases hr : run k m with
  | running m' =>
    rw [hr] at hover
    cases hover
  | ended e m' =>
    rw [hr] at hslots
    exact ⟨k, e, m', hr, hslots⟩
  | faulted fault => exact absurd hr (hfault fault)

theorem run_start_bounded_growing :
    let source := "(\\x. x x) \\x. x \\y. x"
    source.utf8ByteSize * (10 + 2) < UInt32.size ∧
      ∃ program, parse "growing" source = .ok (.ok program) ∧
        let m := start ⟨true, some 10⟩ program (.ofDeliveries []) (.limited none none)
        ∃ k e m', run k m = .ended e m' ∧ Slotwise.run k m = some (.ended e m') := by
  -- each value that `\y. x` puts in has a binder more than the one before: the limit ends the run
  intro source
  have hsize : source.utf8ByteSize * (10 + 2) < UInt32.size := by decide
  have hparse : parse "growing" "(\\x. x x) \\x. x \\y. x" =
      .ok (.ok (.app 0 0 (.app 1 1 (.var 0 0) (.var 0 0)) (.app 1 1 (.var 0 0) (.var 1 1)))) := rfl
  exact ⟨hsize, _, hparse, (run_start_bounded "growing" source _ hparse 10 hsize true
    (.ofDeliveries []) (.limited none none)).1⟩

end Machine

end WeakHead
