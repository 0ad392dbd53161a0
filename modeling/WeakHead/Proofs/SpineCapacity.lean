import Mathlib.Algebra.Group.Nat.Defs
import WeakHead.Proofs.SpineOperations

/-!
# How many slots a spine has

An operation makes more slots only if the arguments that it leaves do not fit
in those that are there, however these are spread over the front and the back.
It then doubles their number until they do. So the number depends on nothing
but the most arguments that there have been.
-/

namespace WeakHead

namespace Spine

/-! ## Doubling -/

section
variable {a b c : Nat}

theorem doubled_doubled (h : a ≤ b) : doubled b (doubled a c) = doubled b c := by
  fun_induction doubled a c with
  | case1 => rfl
  | case2 c hc ih =>
    have hb : ¬ (b ≤ c ∨ c = 0) := by omega
    rw [ih, doubled.eq_1 b c, if_neg hb]

theorem exists_doubled_eq (needed : Nat) (hc : c ≠ 0) :
    ∃ k, doubled needed c = c * 2 ^ k ∧ ∀ j, needed ≤ c * 2 ^ j → k ≤ j := by
  fun_induction doubled needed c with
  | case1 => exact ⟨0, by simp, fun j _ => Nat.zero_le j⟩
  | case2 c h ih =>
    obtain ⟨k, hk, hleast⟩ := ih (by omega)
    have hpow : ∀ j, 2 * c * 2 ^ j = c * 2 ^ (j + 1) := by
      intro j
      rw [Nat.pow_succ, Nat.mul_comm 2, Nat.mul_assoc, Nat.mul_comm 2]
    refine ⟨k + 1, by rw [hk, hpow], ?_⟩
    intro j hj
    cases j with
    | zero =>
      rw [Nat.pow_zero, Nat.mul_one] at hj
      exact absurd (.inl hj) h
    | succ j =>
      rw [← hpow] at hj
      exact Nat.succ_le_succ (hleast j hj)

/-- How many slots there are after room has been made for `needed` arguments. -/
def enlarged (needed capacity : Nat) : Nat :=
  if needed ≤ capacity then capacity else doubled needed (max capacity leastCapacity)

theorem enlarged_of_le (h : a ≤ c) : enlarged a c = c := if_pos h

theorem enlarged_enlarged (a b c : Nat) : enlarged b (enlarged a c) = enlarged (max a b) c := by
  have hleast : leastCapacity ≠ 0 := by decide
  by_cases ha : a ≤ c
  · rw [enlarged_of_le ha]
    by_cases hb : b ≤ c
    · rw [enlarged_of_le hb, enlarged_of_le (Nat.max_le.mpr ⟨ha, hb⟩)]
    · rw [Nat.max_eq_right (by omega)]
  have hfits : a ≤ doubled a (max c leastCapacity) := needed_le_doubled (by omega)
  have hle := le_doubled a (max c leastCapacity)
  have hmax : ¬ max a b ≤ c := by omega
  rw [enlarged, enlarged, enlarged, if_neg ha, if_neg hmax,
    ← doubled_doubled (Nat.le_max_left a b)]
  by_cases hb : b ≤ doubled a (max c leastCapacity)
  · rw [if_pos hb, doubled_of_le (Nat.max_le.mpr ⟨hfits, hb⟩)]
  · rw [if_neg hb, Nat.max_eq_right (show a ≤ b by omega), Nat.max_eq_left (by omega)]

end

/-! ## Operations -/

section
variable {s s' : Spine} {ts taken : List Term}

theorem Holds.length_le_capacity (h : s.Holds ts) : ts.length ≤ s.capacity := by
  have hle := h.stop_le_capacity
  rw [h.stop_eq] at hle
  exact Nat.le_trans (Nat.le_add_left _ _) hle

theorem Regular.capacity_push (h : s.Regular ts) (t : Term) :
    (s.push t).capacity = enlarged (ts.length + 1) s.capacity := by
  have hstop := h.stop_eq
  have hle := h.stop_le_capacity
  have hcap := h.capacity_eq
  have hsize : ∀ r : Spine, Spine.capacity { r with
      slots := r.slots.setIfInBounds r.stop t, stop := r.stop + 1 } = r.capacity :=
    fun r => Array.size_setIfInBounds
  unfold push
  rw [hsize]
  by_cases h1 : s.stop < s.capacity
  · rw [if_pos h1, enlarged_of_le (by omega)]
  rw [if_neg h1]
  by_cases h2 : 0 < s.first
  · rw [if_pos h2, capacity_relocate h.toHolds, enlarged_of_le (by omega)]
    omega
  · -- every slot is taken, and one more than all fits in twice as many
    have hfull : ts.length = s.capacity := by omega
    have hneeded : ¬ ts.length + 1 ≤ s.capacity := by omega
    rw [if_neg h2, capacity_relocate h.toHolds, enlarged, if_neg hneeded, hfull]
    have hleast : 0 < leastCapacity := by decide
    rcases hcap with hzero | hcap
    · rw [hzero, doubled_of_le (by omega)]
      omega
    · rw [doubled.eq_1, if_neg (by omega), Nat.max_eq_left hcap, doubled_of_le (by omega)]
      omega

theorem Regular.capacity_reserveFront (h : s.Regular ts) (n : Nat) :
    (s.reserveFront n).capacity = enlarged (n + ts.length) s.capacity := by
  have hstop := h.stop_eq
  have hle := h.stop_le_capacity
  have hcap := h.capacity_eq
  have hleast : 0 < leastCapacity := by decide
  unfold reserveFront
  by_cases hn : n ≤ s.first
  · rw [if_pos hn, enlarged_of_le (by omega)]
    rfl
  have hfits : n + ts.length ≤ doubled (n + ts.length) (max s.capacity leastCapacity) :=
    needed_le_doubled (by omega)
  rw [if_neg hn]
  show (s.relocate n _).capacity = _
  rw [capacity_relocate h.toHolds, h.size_eq, Nat.max_eq_left hfits]
  by_cases hroom : n + ts.length ≤ s.capacity
  · rw [enlarged_of_le hroom, doubled_of_le (by omega)]
    omega
  · rw [enlarged, if_neg hroom]

theorem capacity_popBack? {t : Term} (h : s.popBack? = some (t, s')) : s'.capacity = s.capacity := by
  unfold popBack? at h
  obtain ⟨-, h⟩ := Option.ite_none_left_eq_some.mp h
  cases h
  exact Array.size_setIfInBounds

theorem capacity_popFront? {t : Term} (h : s.popFront? = some (t, s')) :
    s'.capacity = s.capacity := by
  unfold popFront? at h
  obtain ⟨-, h⟩ := Option.ite_none_left_eq_some.mp h
  cases h
  exact Array.size_setIfInBounds

theorem capacity_dropBack {n : Nat} (h : s.dropBack n = .ok s') : s'.capacity = s.capacity := by
  unfold dropBack at h
  by_cases hn : n ≤ s.size
  · rw [if_pos hn] at h
    cases h
    exact size_free _ _ _
  · rw [if_neg hn] at h
    cases h

theorem length_written (n : Nat) (writes : List (Nat × Term)) :
    (Operation.written n writes).length = n := by
  have hset : ∀ us : List Term,
      (writes.foldl (fun us w => us.set w.1 w.2) us).length = us.length := by
    induction writes with
    | nil => exact fun us => rfl
    | cons w writes ih =>
      intro us
      rw [List.foldl_cons, ih, List.length_set]
  rw [Operation.written, hset, List.length_replicate]

theorem Regular.capacity_operation (h : s.Regular ts) {op : Operation}
    (hs : op.onSpine s = .ok (taken, s')) :
    s'.capacity = enlarged (op.onList ts).2.length s.capacity := by
  have hkept : s'.capacity = s.capacity → (op.onList ts).2.length ≤ ts.length →
      s'.capacity = enlarged (op.onList ts).2.length s.capacity := by
    intro hcap hlength
    rw [hcap, enlarged_of_le (Nat.le_trans hlength h.length_le_capacity)]
  cases op with
  | push t =>
    cases hs
    rw [h.capacity_push, Operation.onList, List.length_append]
    rfl
  | reserveFront n writes =>
    cases hs
    rw [Operation.onList, List.length_append, length_written, ← h.capacity_reserveFront]
    exact size_store _ _ _
  | dropBack n =>
    obtain ⟨s₁, hdrop, hs⟩ := Checked.bind_eq_ok_iff.mp hs
    cases hs
    exact hkept (capacity_dropBack hdrop) (List.length_take_le' _ _)
  | popBack =>
    refine hkept ?_ (by simp [Operation.onList])
    rw [Operation.onSpine] at hs
    cases hp : s.popBack? with
    | none => rw [hp] at hs; cases hs; rfl
    | some r => rw [hp] at hs; cases hs; exact capacity_popBack? hp
  | popFront =>
    refine hkept ?_ (by simp [Operation.onList])
    rw [Operation.onSpine] at hs
    cases hp : s.popFront? with
    | none => rw [hp] at hs; cases hs; rfl
    | some r => rw [hp] at hs; cases hs; exact capacity_popFront? hp
  | clear =>
    cases hs
    exact hkept (size_free _ _ _) (Nat.zero_le _)

end

/-! ## Sequences -/

namespace Operation

def lengths : List Term → List Operation → List Nat
  | ts, [] => [ts.length]
  | ts, op :: ops => ts.length :: lengths (op.onList ts).2 ops

def sizes : Spine → List Operation → Option (List Nat)
  | s, [] => do return [← Slotwise.size s]
  | s, op :: ops => do
    let n ← Slotwise.size s
    let (_, s) ← op.onSlots s
    return n :: (← sizes s ops)

end Operation

section
variable {s s' : Spine} {ts : List Term}

open Operation in
theorem Regular.sizes_eq (h : s.Regular ts) {ops : List Operation} (hops : AllPossible ts ops) :
    sizes s ops = some (lengths ts ops) := by
  induction ops generalizing s ts with
  | nil =>
    rw [sizes, slotwise_size h.toHolds]
    rfl
  | cons op ops ih =>
    obtain ⟨hop, hrest⟩ := hops
    obtain ⟨s₁, hslots, -, h₁⟩ := h.operation hop
    simp only [sizes, slotwise_size h.toHolds, hslots, ih h₁ hrest, bind, Option.bind]
    rfl

theorem length_le_peak (ts : List Term) (ops : List Operation) :
    ts.length ≤ (Operation.lengths ts ops).foldr max 0 := by
  cases ops <;> exact Nat.le_max_left _ _

open Operation in
theorem Regular.capacity_operations (h : s.Regular ts) {ops : List Operation}
    (hops : AllPossible ts ops) {taken : List (List Term)}
    (hs : all onSpine ops s = .ok (taken, s')) :
    s'.capacity = enlarged ((lengths ts ops).foldr max 0) s.capacity := by
  induction ops generalizing s ts taken with
  | nil =>
    cases hs
    rw [lengths, List.foldr_cons, List.foldr_nil, Nat.max_zero,
      enlarged_of_le h.length_le_capacity]
  | cons op ops ih =>
    obtain ⟨hop, hrest⟩ := hops
    obtain ⟨s₁, -, hspine, h₁⟩ := h.operation hop
    obtain ⟨s₂, -, hspine', -⟩ := h₁.operations hrest
    simp only [all, hspine, hspine', bind, Except.bind] at hs
    cases hs
    rw [ih h₁ hrest hspine', h.capacity_operation hspine, enlarged_enlarged,
      Nat.max_eq_right (length_le_peak _ ops), lengths, List.foldr_cons, ← enlarged_enlarged,
      enlarged_of_le h.length_le_capacity]

end

open Operation in
/-- **The capacity is determined by the peak.** With `peak` for the most arguments that there have
been, a spine has no slots if it never had an argument, and otherwise the least number of the form
`16 * 2 ^ k` that is enough for so many, whichever operations led there. -/
theorem capacity_of_peak (ops : List Operation) (h : AllPossible [] ops) :
    ∃ taken s ns, all onSlots ops .empty = some (taken, s) ∧
      all onSpine ops .empty = .ok (taken, s) ∧ sizes .empty ops = some ns ∧
      let peak := ns.foldr max 0
      (peak = 0 → s.capacity = 0) ∧
      (peak ≠ 0 → ∃ k, s.capacity = 16 * 2 ^ k ∧ peak ≤ s.capacity ∧
        ∀ j, peak ≤ 16 * 2 ^ j → s.capacity ≤ 16 * 2 ^ j) := by
  obtain ⟨s, hslots, hspine, -⟩ := regular_empty.operations h
  have hcap : s.capacity = enlarged ((lengths [] ops).foldr max 0) 0 :=
    regular_empty.capacity_operations h hspine
  refine ⟨_, s, _, hslots, hspine, regular_empty.sizes_eq h, ?_⟩
  intro peak
  constructor
  · intro hzero
    rw [hcap]
    exact enlarged_of_le (Nat.le_of_eq hzero)
  · intro hpos
    have hroom : ¬ peak ≤ 0 := by omega
    have hleast : max 0 leastCapacity = 16 := rfl
    rw [enlarged, if_neg hroom, hleast] at hcap
    obtain ⟨k, hk, hmin⟩ := exists_doubled_eq peak (show 16 ≠ 0 by decide)
    refine ⟨k, hcap.trans hk, ?_, ?_⟩
    · rw [hcap]
      exact needed_le_doubled (by decide)
    · intro j hj
      rw [hcap, hk]
      exact Nat.mul_le_mul_left 16 (Nat.pow_le_pow_right (by decide) (hmin j hj))

open Operation in
theorem capacity_of_peak_both_ends :
    let fill : List Operation := .replicate 16 (.push .nil) ++ [.popFront, .push .nil, .popBack,
      .popBack, .reserveFront 2 []]
    let more : List Operation := [.popBack, .reserveFront 2 [], .dropBack 9, .clear]
    AllPossible [] fill ∧ AllPossible [] (fill ++ more) ∧
      (∃ taken s, all onSlots fill .empty = some (taken, s) ∧ s.capacity = 16) ∧
      ∃ taken s, all onSlots (fill ++ more) .empty = some (taken, s) ∧ s.capacity = 32 := by
  -- sixteen slots are used up at both ends, and one argument more takes thirty-two
  intro fill more
  have hfill : AllPossible [] fill := by decide
  have hmore : AllPossible [] (fill ++ more) := by decide
  have hsizes := regular_empty.sizes_eq hfill
  have hsizes' := regular_empty.sizes_eq hmore
  have hpeak : (lengths [] fill).foldr max 0 = 16 := by decide
  have hpeak' : (lengths [] (fill ++ more)).foldr max 0 = 17 := by decide
  obtain ⟨taken, s, ns, hslots, -, hns, -, hcap⟩ := capacity_of_peak fill hfill
  obtain ⟨taken', s', ns', hslots', -, hns', -, hcap'⟩ := capacity_of_peak (fill ++ more) hmore
  obtain rfl := Option.some.inj (hsizes.symm.trans hns)
  obtain rfl := Option.some.inj (hsizes'.symm.trans hns')
  rw [hpeak] at hcap
  rw [hpeak'] at hcap'
  refine ⟨hfill, hmore, ⟨taken, s, hslots, ?_⟩, taken', s', hslots', ?_⟩
  · obtain ⟨_, -, hle, hleast⟩ := hcap (by decide)
    exact Nat.le_antisymm (hleast 0 (by decide)) hle
  · obtain ⟨k, hk, hle, hleast⟩ := hcap' (by decide)
    have hupper := hleast 1 (by decide)
    match k with
    | 0 => omega
    | 1 => exact hk
    | k + 2 =>
      have hpow := Nat.one_le_two_pow (n := k)
      rw [Nat.pow_add] at hk
      omega

end Spine

end WeakHead
