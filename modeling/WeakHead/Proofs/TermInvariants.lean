import WeakHead.Proofs.Transitions

/-!
# Properties that a machine hands on

The terms of a machine come from the program, from instantiation and from the
few atoms and booleans that the machine makes itself. A property that all of
these hand on holds of the focus, of every argument and of the result, as long
as the machine runs. It may depend on the number of beta steps so far. If it
does not hold of every atom, what a step hands on depends on the placeholders
that the step takes.
-/

namespace WeakHead

/-- `P k` can be said of every term of a machine after `k` beta steps, if it can be said of the
program and of the placeholders. -/
structure Inherited (P : Nat → Term → Prop) : Prop where
  nil : ∀ k, P k .nil
  ofBit : ∀ k bit, P k (.ofBit bit)
  func : ∀ {k range func arg}, P k (.app 0 range func arg) → P k func
  arg : ∀ {k range func arg}, P k (.app 0 range func arg) → P k arg
  later : ∀ {k t}, P k t → P (k + 1) t
  instantiate : ∀ {k t u} {values : Array Term}, P k t → (∀ v ∈ values, P k v) →
    values.size = t.binders.toNat → t.body.instantiate values = .ok u → P (k + 1) u

/-- The same of a property that every atom has. -/
structure HandedOn (P : Nat → Term → Prop) : Prop extends Inherited P where
  atom : ∀ k id, P k (.atom 0 id)
  nil := fun k => atom k 0

def Machine.Carries (P : Nat → Term → Prop) (m : Machine) : Prop :=
  P m.tally.betas m.focus ∧ ∃ ts, m.spine.Holds ts ∧ ∀ t ∈ ts, P m.tally.betas t

def Ending.Carries (P : Term → Prop) : Ending → Prop
  | .halted _ whnf => P whnf
  | .stuck index => P (.var 0 index)
  | .outOfSteps => True
  | .failed _ => True

namespace Machine

section
variable {P : Nat → Term → Prop} {m m' : Machine} {ts : List Term}

theorem carries_start {settings : Settings} {program : Term} {input : Input} {sink : Sink}
    (h : P 0 program) : (start settings program input sink).Carries P :=
  ⟨h, [], Spine.holds_empty, by simp⟩

theorem Carries.mono {P' : Nat → Term → Prop} (h : m.Carries P)
    (hP : ∀ t, P m.tally.betas t → P' m.tally.betas t) : m.Carries P' := by
  obtain ⟨hfocus, ts, hts, hall⟩ := h
  exact ⟨hP _ hfocus, ts, hts, fun t ht => hP t (hall t ht)⟩

theorem carries_push {t u : Term} (ht : P m.tally.betas t) (hu : P m.tally.betas u)
    (hs : m.spine.Holds ts) (hall : ∀ t ∈ ts, P m.tally.betas t) :
    Carries P { m with focus := t, spine := m.spine.push u } := by
  refine ⟨ht, ts ++ [u], hs.push u, ?_⟩
  intro v hv
  rcases List.mem_append.mp hv with hv | hv
  · exact hall v hv
  · rwa [List.mem_singleton.mp hv]

abbrev Passes (P : Nat → Term → Prop) (p : Progress) : Prop :=
  p.Sat (Carries P) fun e m => m.Carries P ∧ e.Carries (P m.tally.betas)

theorem passes_of_onlyOutput (h : m.Carries P) {cause : StreamFailure} {p : Progress}
    (hp : m.OnlyOutput cause p) : Passes P p :=
  hp.sat (fun _ => h) fun _ => ⟨h, trivial⟩

theorem passes_stop (h : m.Carries P) {ending : Ending} (he : ending.Carries (P m.tally.betas)) :
    Passes P (m.stop ending) := by
  unfold stop
  obtain ⟨output, hflush | hflush⟩ := onlyOutput_flush m
  · rw [hflush]
    exact ⟨h, he⟩
  · rw [hflush]
    exact ⟨h, trivial⟩

def missing (m : Machine) : List Term :=
  (m.placeholders.take (m.focus.binders.toNat - m.spine.size)).1

theorem forall_mem_filled {Q : Term → Prop} {n : Nat}
    (hp : ∀ t ∈ (m.placeholders.take (n - ts.length)).1, Q t) (hall : ∀ t ∈ ts, Q t) :
    ∀ t ∈ m.filled ts n, Q t := by
  intro t ht
  rcases List.mem_append.mp ht with ht | ht
  · exact hp t ht
  · exact hall t ht

end

end Machine

namespace Inherited

open Machine

section
variable {P : Nat → Term → Prop} (hP : Inherited P) {m m' : Machine} {ts : List Term}

include hP

theorem nearest {k : Nat} {s : Spine} (hs : s.Holds ts) (hall : ∀ t ∈ ts, P k t) :
    P k s.nearest := by
  rw [hs.nearest_eq]
  cases hl : ts.getLast? with
  | none => exact hP.nil k
  | some t => exact hall t (List.mem_of_getLast? hl)

/-! ## Rules -/

theorem beta (h : m.Carries P) (hp : ∀ t ∈ m.missing, P m.tally.betas t) (hb : m.beta = .ok m') :
    m'.Carries P := by
  obtain ⟨hf, ts, hts, hall⟩ := h
  obtain ⟨focus, s, hfocus, hs, rfl⟩ := beta_eq_ok hts hb
  rw [missing, hts.size_eq] at hp
  have hfilled := forall_mem_filled hp hall
  refine ⟨hP.instantiate hf ?_ ?_ hfocus, _, hs, ?_⟩
  · intro v hv
    exact hfilled v (List.mem_of_mem_drop (List.mem_toArray.mp hv))
  · rw [List.size_toArray, List.length_drop, length_filled]
    omega
  · intro t ht
    exact hP.later (hfilled t (List.mem_of_mem_take ht))

theorem read (h : m.Carries P) : Passes P m.read := by
  have hready := passes_of_onlyOutput h (onlyOutput_ready m)
  refine hready.andThen fun m' hm' => ?_
  cases m'.input.readBit with
  | ok result =>
    obtain ⟨hf, ts, hts, hall⟩ := hm'
    exact carries_push hf (hP.ofBit _ _) hts hall
  | error reason => exact ⟨hm', trivial⟩

theorem execute (h : m.Carries P) (op : BitOp) : Passes P (m.execute op) := by
  unfold Machine.execute
  refine Progress.Sat.andThen (R := Machine.Carries P) ?_ fun _ hm => hm
  cases op with
  | read => exact hP.read h
  | write bit => exact passes_of_onlyOutput h (onlyOutput_write m bit)

theorem dispatch (h : m.Carries P) (id : UInt32) : Passes P (m.dispatch id) := by
  obtain ⟨_, ts, hts, hall⟩ := h
  have hnearest := hP.nearest hts hall
  have hleft : ∀ output, Machine.Carries P
      { m with focus := m.spine.nearest, spine := m.spine.clear, output := output } :=
    fun _ => ⟨hnearest, [], hts.clear, by simp⟩
  unfold Machine.dispatch
  dsimp only
  obtain ⟨output, hout | hout⟩ := onlyOutput_announce
    { m with focus := m.spine.nearest, spine := m.spine.clear } id m.spine.nearest
  · rw [hout]
    dsimp only [Progress.andThen]
    cases BitOp.ofAtomId? id with
    | some op => exact hP.execute (hleft output) op
    | none =>
      refine passes_stop (hleft output) ?_
      exact hnearest
  · rw [hout]
    exact ⟨hleft output, trivial⟩

theorem step (h : m.Carries P)
    (hp : m.isOutOfSteps = false → m.focus.binders ≠ 0 → ∀ t ∈ m.missing, P m.tally.betas t) :
    Passes P m.step := by
  rcases m.step_cases with ⟨_, hs⟩ | ⟨ho, hs⟩
  · rw [hs]
    exact passes_stop h trivial
  rcases hs with ⟨hn, hs⟩ | ⟨range, func, arg, hf, hs⟩ | ⟨id, _, hs⟩ | ⟨index, hf, hs⟩
  · rw [hs]
    cases hb : m.beta with
    | error => trivial
    | ok m' => exact hP.beta h (hp ho hn) hb
  · rw [hs]
    obtain ⟨hfocus, ts, hts, hall⟩ := h
    rw [hf] at hfocus
    exact carries_push (hP.func hfocus) (hP.arg hfocus) hts hall
  · rw [hs]
    exact hP.dispatch h id
  · rw [hs]
    refine passes_stop h ?_
    show P _ (.var 0 index)
    rw [← hf]
    exact h.1

end

end Inherited

/-! ## Properties of every atom -/

namespace HandedOn

open Machine

section
variable {P : Nat → Term → Prop} (hP : HandedOn P) {m m' : Machine} {ts : List Term}

include hP

theorem mem_take (k : Nat) {p : Placeholders} {n : Nat} {t : Term} (h : t ∈ (p.take n).1) :
    P k t := by
  cases p with
  | numbered next =>
    obtain ⟨i, _, rfl⟩ := List.mem_map.mp h
    exact hP.atom k _
  | blank =>
    rw [List.eq_of_mem_replicate h]
    exact hP.atom k 0

theorem mem_filled (hall : ∀ t ∈ ts, P m.tally.betas t) {n : Nat} :
    ∀ t ∈ m.filled ts n, P m.tally.betas t :=
  forall_mem_filled (fun _ ht => hP.mem_take _ ht) hall

theorem beta (h : m.Carries P) (hb : m.beta = .ok m') : m'.Carries P :=
  hP.toInherited.beta h (fun _ ht => hP.mem_take _ ht) hb

theorem step (h : m.Carries P) : Passes P m.step :=
  hP.toInherited.step h fun _ _ _ ht => hP.mem_take _ ht

theorem run (h : m.Carries P) (n : Nat) : Passes P (Machine.run n m) :=
  Machine.run_sat (fun _ => hP.step) h n

end

theorem trivial : HandedOn fun _ _ => True where
  atom _ _ := .intro
  ofBit _ _ := .intro
  func _ := .intro
  arg _ := .intro
  later _ := .intro
  instantiate _ _ _ _ := .intro

end HandedOn

theorem Machine.exists_holds_run {settings : Settings} {program : Term} {input : Input}
    {sink : Sink} {n : Nat} {m : Machine}
    (h : run n (start settings program input sink) = .running m) : ∃ ts, m.spine.Holds ts := by
  have hstart : (start settings program input sink).Carries fun _ _ => True := carries_start .intro
  have hrun := HandedOn.trivial.run hstart n
  rw [h] at hrun
  obtain ⟨-, ts, hts, -⟩ := hrun
  exact ⟨ts, hts⟩

end WeakHead
