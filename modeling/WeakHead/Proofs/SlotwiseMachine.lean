import WeakHead.Proofs.StackWalk
import WeakHead.Proofs.Transitions

/-!
# The machine slot by slot

A step of the machine in which every access to a slot, every difference and
every sum of words can fail to give a result. On a spine that operations have
left behind the only thing that can stop it is an instantiation that fails,
and otherwise it is the same step.
-/

namespace WeakHead

namespace Slotwise

/-! ## Arguments -/

def placeholder (n i : Nat) : Placeholders → Option Term
  | .numbered next => do return .atom 0 (next + (← minus (← minus n i) 1).toUInt32)
  | .blank => some .nil

def writes (p : Placeholders) (n : Nat) : Option (List (Nat × Term)) :=
  (List.range n).mapM fun i => return (i, ← placeholder n i p)

def advance (n : Nat) : Placeholders → Placeholders
  | .numbered next => .numbered (next + n.toUInt32)
  | .blank => .blank

def fillSpine (m : Machine) (n : Nat) : Option Machine := do
  let size ← size m.spine
  if size < n then
    let missing ← minus n size
    let (_, spine) ← reserveFront m.spine missing
    let spine ← (← writes m.placeholders missing).foldlM (fun s w => overwrite s w.1 w.2) spine
    return { m with spine := spine, placeholders := advance missing m.placeholders }
  else return m

theorem bounds_popFront {s s' : Spine} {t : Option Term} (hempty : s.isEmpty = false)
    (h : popFront s = some (t, s')) :
    s'.first = s.first + 1 ∧ s'.stop = s.stop ∧ s'.capacity = s.capacity := by
  rw [popFront, if_neg (by rw [hempty]; decide)] at h
  cases hget : s.slots[s.first]? with
  | none =>
    rw [hget] at h
    cases h
  | some u =>
    have hlt : s.first < s.slots.size := (Array.getElem?_eq_some_iff.mp hget).1
    rw [hget, write, if_pos hlt] at h
    cases h
    exact ⟨rfl, rfl, Array.size_setIfInBounds⟩

theorem lt_of_popFront {s s' : Spine} {n : Nat} {t : Option Term} (hn : size s = some n)
    (hlt : 1 < n) (h : popFront s = some (t, s')) : s'.stop - s'.first < s.stop - s.first := by
  unfold size minus at hn
  by_cases hle : s.first ≤ s.stop
  · rw [if_pos hle, Option.some.injEq] at hn
    have hempty : s.isEmpty = false := by
      rw [Spine.isEmpty, beq_eq_false_iff_ne]
      omega
    obtain ⟨hfirst, hstop, -⟩ := bounds_popFront hempty h
    omega
  · rw [if_neg hle] at hn
    cases hn

def keepNearest (s : Spine) : Option Spine :=
  match _ : size s with
  | none => none
  | some n =>
    if _ : 1 < n then
      match _ : popFront s with
      | none => none
      | some (_, s') => keepNearest s'
    else some s
termination_by s.stop - s.first
decreasing_by exact lt_of_popFront ‹_› ‹_› ‹_›

def takeNearest (s : Spine) : Option (Term × Spine) := do
  let s ← keepNearest s
  let (t, s) ← popBack s
  return (t.getD .nil, ← clear s)

/-! ## Rules -/

def beta (m : Machine) : Option Machine := do
  let n := m.focus.binders.toNat
  let m ← fillSpine m n
  let focus ← instantiate (← back m.spine n) m.focus.body
  let spine ← dropBack m.spine n
  return { m with
    focus := focus
    spine := spine
    tally := { m.tally with betas := m.tally.betas + 1 } }

def unwind (m : Machine) (func arg : Term) : Option Machine := do
  let spine ← push m.spine arg
  return { m with
    focus := func
    spine := spine
    tally := { m.tally with unwinds := m.tally.unwinds + 1 } }

def andThen (p : Progress) (next : Machine → Option Progress) : Option Progress :=
  match p with
  | .running m => next m
  | .ended ending m => some (.ended ending m)
  | .faulted fault => some (.faulted fault)

def read (m : Machine) : Option Progress :=
  andThen (if m.input.needsByte then m.flush else .running m) fun m =>
    match m.input.readBit with
    | .ok (bit, input) => do
      let spine ← push m.spine (.ofBit bit)
      return .running { m with input := input, spine := spine }
    | .error reason => some (.ended (.failed (.input reason)) m)

def execute (m : Machine) (op : BitOp) : Option Progress := do
  let executed ← match op with
    | .read => read m
    | .write bit => some (m.write bit)
  return executed.andThen fun m =>
    .running { m with
      placeholders := .blank
      tally := { m.tally with operations := m.tally.operations + 1 } }

def dispatch (m : Machine) (id : UInt32) : Option Progress := do
  let (argument, spine) ← takeNearest m.spine
  let m := { m with focus := argument, spine := spine }
  andThen (m.announce id argument) fun m =>
    match BitOp.ofAtomId? id with
    | some op => execute m op
    | none => some (m.stop (.halted id argument))

def step (m : Machine) : Option Progress :=
  if m.isOutOfSteps then some (m.stop .outOfSteps)
  else if m.focus.binders ≠ 0 then do return .running (← beta m)
  else match m.focus with
    | .app _ _ func arg => do return .running (← unwind m func arg)
    | .atom _ id => dispatch m id
    | .var _ index => some (m.stop (.stuck index))

def run : Nat → Machine → Option Progress
  | 0, m => some (.running m)
  | n + 1, m => do andThen (← step m) (run n)

/-! ## Arguments on a regular spine -/

section
variable {s s' : Spine} {n : Nat} {t : Option Term}

theorem keepNearest_of_size_le (hn : size s = some n) (hle : n ≤ 1) :
    keepNearest s = some s := by
  rw [keepNearest]
  split <;> rename_i hs
  · rw [hs] at hn
    cases hn
  · rw [hs, Option.some.injEq] at hn
    rw [dif_neg (by omega)]

theorem keepNearest_of_popFront (hn : size s = some n) (hlt : 1 < n)
    (h : popFront s = some (t, s')) : keepNearest s = keepNearest s' := by
  rw [keepNearest]
  split <;> rename_i hs
  · rw [hs] at hn
    cases hn
  · rw [hs, Option.some.injEq] at hn
    rw [dif_pos (by omega)]
    split <;> rename_i hpop
    · rw [hpop] at h
      cases h
    · rw [hpop] at h
      cases h
      rfl

theorem capacity_popBack (h : popBack s = some (t, s')) : s'.capacity = s.capacity := by
  unfold popBack at h
  by_cases hempty : s.isEmpty = true
  · rw [if_pos hempty] at h
    cases h
    rfl
  · rw [if_neg hempty] at h
    simp only [Option.bind_eq_bind, Option.bind_eq_some_iff] at h
    obtain ⟨last, -, u, -, slots, hslots, h⟩ := h
    cases h
    rw [write, Option.ite_none_right_eq_some] at hslots
    cases hslots.2
    exact Array.size_setIfInBounds

end

theorem mapM_eq_some {α β : Type} {f : α → Option β} {g : α → β} {xs : List α}
    (h : ∀ x ∈ xs, f x = some (g x)) : xs.mapM f = some (xs.map g) := by
  induction xs with
  | nil => rfl
  | cons x xs ih =>
    obtain ⟨hx, hxs⟩ := List.forall_mem_cons.mp h
    rw [List.mapM_cons, hx, ih hxs]
    rfl

theorem foldl_set_range (g : Nat → Term) {k n : Nat} (hk : k ≤ n) :
    ((List.range k).map fun i => (i, g i)).foldl (fun us w => us.set w.1 w.2)
        (List.replicate n .nil) = (List.range k).map g ++ List.replicate (n - k) .nil := by
  induction k with
  | zero => rfl
  | succ k ih =>
    rw [List.range_succ, List.map_append, List.foldl_append, ih (Nat.le_of_succ_le hk),
      List.map_append, List.append_assoc]
    have hrest : List.replicate (n - k) Term.nil = .nil :: List.replicate (n - (k + 1)) .nil := by
      rw [← List.replicate_succ]
      exact congrArg (List.replicate · _) (by omega)
    rw [hrest]
    simp

end Slotwise

namespace Spine

theorem capacity_clear (s : Spine) : s.clear.capacity = s.capacity := size_free _ _ _

section
variable {s : Spine} {ts : List Term}

theorem Regular.slotwise_keepNearest (h : s.Regular ts) :
    ∃ s', Slotwise.keepNearest s = some s' ∧ s'.Regular ts.getLast?.toList ∧
      s'.capacity = s.capacity := by
  have hsize := slotwise_size h.toHolds
  induction ts generalizing s with
  | nil => exact ⟨s, Slotwise.keepNearest_of_size_le hsize (Nat.zero_le 1), h, rfl⟩
  | cons t ts ih =>
    cases ts with
    | nil => exact ⟨s, Slotwise.keepNearest_of_size_le hsize (Nat.le_refl 1), h, rfl⟩
    | cons u ts =>
      obtain ⟨s₁, hpop, -, -, h₁⟩ := h.slotwise_popFront
      have hempty : s.isEmpty = false := h.isEmpty_eq
      have hcap := (Slotwise.bounds_popFront hempty hpop).2.2
      obtain ⟨s', hs', h', hcap'⟩ := ih h₁ (slotwise_size h₁.toHolds)
      refine ⟨s', ?_, ?_, hcap'.trans hcap⟩
      · rw [Slotwise.keepNearest_of_popFront hsize (by simp) hpop]
        exact hs'
      · rwa [List.getLast?_cons_cons]

theorem Regular.slotwise_takeNearest (h : s.Regular ts) :
    Slotwise.takeNearest s = some (s.nearest, s.clear) ∧ s.clear.Regular [] := by
  obtain ⟨s₁, hkeep, h₁, hcap₁⟩ := h.slotwise_keepNearest
  obtain ⟨s₂, hpop, -, -, h₂⟩ := h₁.slotwise_popBack
  have hlast : ts.getLast?.toList.getLast? = ts.getLast? := by
    cases ts.getLast? <;> rfl
  have hdrop : ts.getLast?.toList.dropLast = [] := by
    cases ts.getLast? <;> rfl
  rw [hlast] at hpop
  rw [hdrop] at h₂
  obtain ⟨hclear, hcleared⟩ := h₂.slotwise_clear
  have hcap₂ : s₂.capacity = s₁.capacity := Slotwise.capacity_popBack hpop
  have heq : s₂.clear = s.clear := by
    refine hcleared.toHolds.eq h.toHolds.clear rfl ?_
    rw [capacity_clear, capacity_clear, hcap₂, hcap₁]
  rw [← heq]
  refine ⟨?_, hcleared⟩
  simp only [Slotwise.takeNearest, hkeep, hpop, hclear, bind, Option.bind, h.nearest_eq]
  rfl

end

end Spine

namespace Slotwise

theorem exists_writes (p : Placeholders) (n : Nat) :
    ∃ g, writes p n = some ((List.range n).map fun i => (i, g i)) ∧
      p.take n = ((List.range n).map g, advance n p) := by
  cases p with
  | numbered next =>
    refine ⟨fun i => .atom 0 (next + (n - i - 1).toUInt32), mapM_eq_some ?_, ?_⟩
    · intro i hi
      have hlt := List.mem_range.mp hi
      have hrest : minus n i = some (n - i) := if_pos (by omega)
      have hlater : minus (n - i) 1 = some (n - i - 1) := if_pos (by omega)
      simp only [placeholder, hrest, hlater, Option.bind_eq_bind, Option.bind_some]
      rfl
    · -- the last slot takes the first id
      refine Prod.ext (List.ext_getElem (by simp [Placeholders.take]) ?_) rfl
      intro i _ hi
      rw [List.length_map, List.length_range] at hi
      simp [Placeholders.take, Nat.sub_right_comm]
  | blank =>
    refine ⟨fun _ => .nil, mapM_eq_some fun _ _ => rfl, ?_⟩
    simp [Placeholders.take, advance, List.map_const']

section
variable {m : Machine} {ts : List Term}

theorem fillSpine_eq_some (h : m.spine.Regular ts) (n : Nat) :
    fillSpine m n = some (m.fillSpine n) ∧ (m.fillSpine n).spine.Regular (m.filled ts n) := by
  have hsize := Spine.slotwise_size h.toHolds
  obtain ⟨g, hwrites, htake⟩ := exists_writes m.placeholders (n - ts.length)
  unfold fillSpine Machine.fillSpine Machine.filled
  rw [hsize, h.size_eq]
  by_cases hlt : ts.length < n
  · have hmissing : minus n ts.length = some (n - ts.length) := if_pos (by omega)
    obtain ⟨hreserve, hreserved⟩ := h.slotwise_reserveFront (n - ts.length)
    have hin : ∀ w ∈ (List.range (n - ts.length)).map (fun i => (i, g i)),
        w.1 < (List.replicate (n - ts.length) Term.nil).length := by
      simp
    obtain ⟨hwrite, hwritten⟩ := hreserved.slotwise_overwriteFront hin
    rw [foldl_set_range g (Nat.le_refl _), Nat.sub_self, List.replicate_zero, List.append_nil]
      at hwrite hwritten
    have hne : ¬ n - ts.length = 0 := by omega
    rw [if_neg hne, htake]
    refine ⟨?_, hwritten⟩
    simp only [hmissing, hreserve, hwrites, hwrite, Option.bind_eq_bind, Option.bind_some,
      if_pos hlt]
    rfl
  · have hzero : n - ts.length = 0 := by omega
    rw [if_pos hzero, hzero]
    have hnone : (m.placeholders.take 0).1 = [] :=
      List.eq_nil_of_length_eq_zero (Machine.length_take_placeholders _ 0)
    rw [hnone]
    refine ⟨?_, h⟩
    simp only [bind, Option.bind, if_neg hlt]
    rfl

/-! ## Rules on a regular spine -/

theorem beta_eq_some (h : m.spine.Regular ts) {focus : Term}
    (hfocus : m.focus.body.instantiate ((m.filled ts m.focus.binders.toNat).drop
      (ts.length - m.focus.binders.toNat)).toArray = .ok focus) :
    ∃ m', m.beta = .ok m' ∧ beta m = some m' ∧ ∃ us, m'.spine.Regular us := by
  have hbinders : m.focus.binders.toNat < UInt32.size := m.focus.binders.toNat_lt
  generalize hn : m.focus.binders.toNat = n at hfocus hbinders
  obtain ⟨hfill, hregular⟩ := fillSpine_eq_some h n
  obtain ⟨s, -, hfilled⟩ := Machine.fillSpine_eq h.toHolds n
  rw [hfilled] at hfill hregular
  have hregular : s.Regular (m.filled ts n) := hregular
  have hlen := Machine.length_filled m ts n
  have hstop := hregular.stop_eq
  have hrest : (m.filled ts n).length - n = ts.length - n := by omega
  have hnone : n - (m.filled ts n).length = 0 := by omega
  generalize hvalues : ((m.filled ts n).drop (ts.length - n)).toArray = values at hfocus
  have hsize : values.size < UInt32.size := by
    rw [← hvalues, List.size_toArray, List.length_drop]
    omega
  have hback : s.back n = .ok values := by
    rw [hregular.back (by omega), hrest, hnone, ← hvalues]
    rfl
  have hbackSlots : back s n = some values := by
    rw [Spine.slotwise_back hregular.toHolds (by omega), hrest, hnone, ← hvalues]
    rfl
  obtain ⟨s', hdropSlots, hdrop, hregular'⟩ :=
    hregular.slotwise_dropBack (show n ≤ (m.filled ts n).length by omega)
  refine ⟨{ m with
    focus := focus
    spine := s'
    placeholders := (m.placeholders.take (n - ts.length)).2
    tally := { m.tally with betas := m.tally.betas + 1 } }, ?_, ?_, _, hregular'⟩
  · simp only [Machine.beta, hn, hfilled, hback, hdrop, hfocus, bind, Except.bind]
    rfl
  · simp only [beta, hn, hfill, hbackSlots, hdropSlots, instantiate_eq_some hsize hfocus,
      Option.bind_eq_bind, Option.bind_some]
    rfl

def Sound : Progress → Prop
  | .running m => ∃ ts, m.spine.Regular ts
  | .ended _ _ => True
  | .faulted _ => False

theorem Sound.andThen {p : Progress} (hp : Sound p) {next : Machine → Progress}
    (hn : ∀ m ts, m.spine.Regular ts → Sound (next m)) : Sound (p.andThen next) := by
  cases p with
  | running m =>
    obtain ⟨ts, hts⟩ := hp
    exact hn m ts hts
  | ended => trivial
  | faulted => exact hp

theorem sound_of_onlyOutput (h : m.spine.Regular ts) {cause : StreamFailure} {p : Progress}
    (hp : m.OnlyOutput cause p) : Sound p := by
  obtain ⟨output, rfl | rfl⟩ := hp
  · exact ⟨ts, h⟩
  · trivial

/-- The slots give the result of a rule. -/
structure Agrees (p : Progress) (q : Option Progress) : Prop where
  eq_some : q = some p
  sound : Sound p

theorem Agrees.andThen {p : Progress} {next : Machine → Progress}
    {next' : Machine → Option Progress} (hp : Sound p)
    (hn : ∀ m ts, m.spine.Regular ts → Agrees (next m) (next' m)) :
    Agrees (p.andThen next) (andThen p next') := by
  refine ⟨?_, hp.andThen fun m ts hm => (hn m ts hm).sound⟩
  cases p with
  | running m =>
    obtain ⟨ts, hts⟩ := hp
    exact (hn m ts hts).eq_some
  | ended => rfl
  | faulted => rfl

theorem agrees_stop (h : m.spine.Regular ts) (ending : Ending) :
    Agrees (m.stop ending) (some (m.stop ending)) :=
  ⟨rfl, (sound_of_onlyOutput h (Machine.onlyOutput_flush m)).andThen fun _ _ _ => trivial⟩

theorem agrees_read (h : m.spine.Regular ts) : Agrees m.read (read m) := by
  refine Agrees.andThen (sound_of_onlyOutput h (Machine.onlyOutput_ready m)) ?_
  intro m ts h
  cases m.input.readBit with
  | ok result =>
    obtain ⟨hpush, hregular⟩ := h.slotwise_push (.ofBit result.1)
    refine ⟨?_, _, hregular⟩
    simp only [hpush, Option.bind_eq_bind, Option.bind_some]
    rfl
  | error reason => exact ⟨rfl, trivial⟩

theorem agrees_execute (h : m.spine.Regular ts) (op : BitOp) :
    Agrees (m.execute op) (execute m op) := by
  have hexecuted : ∀ {p : Progress} {q : Option Progress}, Agrees p q →
      Agrees (p.andThen fun m => .running { m with
        placeholders := .blank
        tally := { m.tally with operations := m.tally.operations + 1 } })
        (do return (← q).andThen fun m => .running { m with
          placeholders := .blank
          tally := { m.tally with operations := m.tally.operations + 1 } }) := by
    intro p q hq
    refine ⟨by rw [hq.eq_some]; rfl, hq.sound.andThen fun _ ts hm => ⟨ts, hm⟩⟩
  cases op with
  | read => exact hexecuted (agrees_read h)
  | write bit =>
    have hwrite := sound_of_onlyOutput h (Machine.onlyOutput_write m bit)
    exact hexecuted ⟨rfl, hwrite⟩

theorem agrees_dispatch (h : m.spine.Regular ts) (id : UInt32) :
    Agrees (m.dispatch id) (dispatch m id) := by
  obtain ⟨htake, hcleared⟩ := h.slotwise_takeNearest
  unfold dispatch Machine.dispatch
  rw [htake, Option.bind_eq_bind, Option.bind_some]
  have hannounced := sound_of_onlyOutput (m := { m with
    focus := m.spine.nearest
    spine := m.spine.clear }) hcleared (Machine.onlyOutput_announce _ id m.spine.nearest)
  refine Agrees.andThen hannounced ?_
  intro m' us hm'
  cases BitOp.ofAtomId? id with
  | some op => exact agrees_execute hm' op
  | none => exact agrees_stop hm' _

theorem agrees_step (h : m.spine.Regular ts)
    (hbeta : m.isOutOfSteps = false → ∃ focus, m.focus.body.instantiate
      ((m.filled ts m.focus.binders.toNat).drop
        (ts.length - m.focus.binders.toNat)).toArray = .ok focus) :
    Agrees m.step (step m) := by
  by_cases ho : m.isOutOfSteps = true
  · rw [step, Machine.step, if_pos ho, if_pos ho]
    exact agrees_stop h _
  obtain ⟨focus, hfocus⟩ := hbeta (Bool.eq_false_iff.mpr ho)
  rw [step, Machine.step, if_neg ho, if_neg ho]
  by_cases hb : m.focus.binders ≠ 0
  · obtain ⟨m', hm', hslots, hregular⟩ := beta_eq_some h hfocus
    rw [if_pos hb, if_pos hb, hm', hslots]
    exact ⟨rfl, hregular⟩
  rw [if_neg hb, if_neg hb]
  cases m.focus with
  | app binders range func arg =>
    obtain ⟨hpush, hregular⟩ := h.slotwise_push arg
    refine ⟨?_, _, hregular⟩
    simp only [unwind, hpush, Option.bind_eq_bind, Option.bind_some]
    rfl
  | atom binders id => exact agrees_dispatch h id
  | var binders index => exact agrees_stop h _

end

end Slotwise

end WeakHead
