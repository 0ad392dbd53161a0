import WeakHead.Proofs.SpineList

/-!
# Spines slot by slot

The operations on a spine as accesses to its slots. Arguments move by
rotation, new slots come at the end, and a slot that is not there cannot be
read or written: then there is no result. A spine that holds a list never runs
into that, and each operation does to the slots what it does to the spine.
-/

namespace WeakHead

namespace Slotwise

/-! ## Accesses -/

def minus (a b : Nat) : Option Nat := if b ≤ a then some (a - b) else none

section
variable (slots : Array Term)

def slice (start stop : Nat) : Option (Array Term) :=
  if start ≤ stop ∧ stop ≤ slots.size then some (slots.extract start stop) else none

def write (i : Nat) (t : Term) : Option (Array Term) :=
  if i < slots.size then some (slots.setIfInBounds i t) else none

def fill (start stop : Nat) : Option (Array Term) :=
  if start ≤ stop ∧ stop ≤ slots.size then some (Spine.free slots start (stop - start)) else none

/-- Moves the first `n` of the slots before `stop` behind the others. -/
def rotate (stop n : Nat) : Option (Array Term) :=
  if n ≤ stop ∧ stop ≤ slots.size then
    some (slots.extract n stop ++ slots.extract 0 n ++ slots.extract stop slots.size)
  else none

def resize (capacity : Nat) : Array Term :=
  slots.extract 0 capacity ++ Array.replicate (capacity - slots.size) .nil

end

/-! ## Operations -/

section
variable (s : Spine)

def size : Option Nat := minus s.stop s.first

def makeRoom : Option Spine :=
  if s.stop = s.slots.size then
    if 0 < s.first then do
      let slots ← rotate s.slots s.stop s.first
      let stop ← minus s.stop s.first
      return ⟨slots, 0, stop⟩
    else
      return { s with slots := resize s.slots (max (2 * s.slots.size) Spine.leastCapacity) }
  else
    return s

def push (t : Term) : Option Spine := do
  let s ← makeRoom s
  let slots ← write s.slots s.stop t
  return { s with slots := slots, stop := s.stop + 1 }

def makeRoomInFront (n : Nat) : Option Spine :=
  if n ≤ s.first then
    return { s with first := s.first - n }
  else do
    let missing ← minus n s.first
    let stop := s.stop + missing
    let slots :=
      if s.slots.size < stop then
        resize s.slots (Spine.doubled stop (max s.slots.size Spine.leastCapacity))
      else s.slots
    let slots ← rotate slots stop (← minus stop missing)
    return ⟨slots, 0, stop⟩

def reserveFront (n : Nat) : Option (Array Term × Spine) := do
  let s ← makeRoomInFront s n
  let taken ← slice s.slots s.first (s.first + n)
  return (taken, s)

def overwrite (i : Nat) (t : Term) : Option Spine := do
  let slots ← write s.slots (s.first + i) t
  return { s with slots := slots }

def back (n : Nat) : Option (Array Term) := do
  slice s.slots (← minus s.stop n) s.stop

def dropBack (n : Nat) : Option Spine := do
  let start ← minus s.stop n
  let slots ← fill s.slots start s.stop
  return { s with slots := slots, stop := start }

def popBack : Option (Option Term × Spine) :=
  if s.isEmpty then some (none, s)
  else do
    let last ← minus s.stop 1
    let t ← s.slots[last]?
    let slots ← write s.slots last .nil
    return (some t, { s with slots := slots, stop := last })

def popFront : Option (Option Term × Spine) :=
  if s.isEmpty then some (none, s)
  else do
    let t ← s.slots[s.first]?
    let slots ← write s.slots s.first .nil
    return (some t, { s with slots := slots, first := s.first + 1 })

def clear : Option Spine := do
  let slots ← fill s.slots s.first s.stop
  return ⟨slots, 0, 0⟩

end

end Slotwise

/-! ## Slots as lists -/

namespace Slotwise

section
variable {slots : Array Term} {before taken after : List Term}

theorem rotate_eq_some (h : slots.toList = before ++ (taken ++ after)) :
    ∃ slots', rotate slots (before.length + taken.length) before.length = some slots' ∧
      slots'.toList = taken ++ (before ++ after) := by
  have hsize : slots.size = before.length + (taken.length + after.length) := by
    rw [← Array.length_toList, h, List.length_append, List.length_append]
  refine ⟨_, if_pos (by omega), ?_⟩
  have hafter : before.length + (taken.length + after.length) - (before.length + taken.length) =
      after.length := by omega
  simp [h, hsize, hafter, List.take_append, List.drop_append]

theorem toList_resize (capacity : Nat) (h : slots.size ≤ capacity) :
    (resize slots capacity).toList =
      slots.toList ++ List.replicate (capacity - slots.size) .nil := by
  have htake : slots.toList.take capacity = slots.toList :=
    List.take_of_length_le (by rwa [Array.length_toList])
  simp [resize, htake]

end

end Slotwise

namespace Spine

/-- A spine that operations have left behind: it has no slots or enough to begin with. -/
structure Regular (s : Spine) (ts : List Term) : Prop extends s.Holds ts where
  capacity_eq : s.capacity = 0 ∨ leastCapacity ≤ s.capacity

theorem regular_empty : Regular .empty [] := ⟨holds_empty, .inl rfl⟩

section
variable {s s' : Spine} {ts : List Term}

theorem Holds.capacity_eq_add (h : s.Holds ts) {n : Nat}
    (hn : s.slots.toList = List.replicate s.first .nil ++ (ts ++ List.replicate n .nil)) :
    s.capacity = s.stop + n := by
  rw [capacity, ← Array.length_toList, hn, h.stop_eq]
  simp only [List.length_append, List.length_replicate]
  omega

theorem Holds.eq (h : s.Holds ts) (h' : s'.Holds ts) (hf : s.first = s'.first)
    (hc : s.capacity = s'.capacity) : s = s' := by
  have hstop : s.stop = s'.stop := by rw [h.stop_eq, h'.stop_eq, hf]
  obtain ⟨n, hn⟩ := h.slots_eq
  obtain ⟨n', hn'⟩ := h'.slots_eq
  have hcap := h.capacity_eq_add hn
  have hcap' := h'.capacity_eq_add hn'
  have hslots : s.slots = s'.slots := by
    rw [← Array.toList_inj, hn, hn', hf, show n = n' by omega]
  cases s
  cases s'
  simp only at hf hstop hslots
  rw [hf, hstop, hslots]

/-! ## Moving -/

theorem Holds.rotate_front (h : s.Holds ts) :
    ∃ slots, Slotwise.rotate s.slots s.stop s.first = some slots ∧
      (⟨slots, 0, ts.length⟩ : Spine) = s.relocate 0 s.capacity := by
  obtain ⟨n, hn⟩ := h.slots_eq
  obtain ⟨slots, hslots, hlist⟩ := Slotwise.rotate_eq_some hn
  rw [List.length_replicate, ← h.stop_eq] at hslots
  have hmoved : Holds ⟨slots, 0, ts.length⟩ ts := by
    refine ⟨⟨s.first + n, ?_⟩, (Nat.zero_add _).symm⟩
    simp [hlist, ← List.replicate_append_replicate]
  refine ⟨slots, hslots, hmoved.eq (h.relocate 0 s.capacity) rfl ?_⟩
  have hcap := h.capacity_eq_add hn
  have hstop := h.stop_eq
  rw [capacity_relocate h, capacity, ← Array.length_toList, hlist]
  simp only [List.length_append, List.length_replicate]
  omega

theorem Holds.grow (h : s.Holds ts) (hf : s.first = 0) {c : Nat} (hc : s.capacity ≤ c) :
    { s with slots := Slotwise.resize s.slots c } = s.relocate 0 c := by
  have hle := h.stop_le_capacity
  have hstop := h.stop_eq
  have hlist := Slotwise.toList_resize c hc
  obtain ⟨n, hn⟩ := h.slots_eq
  have hgrown : Holds { s with slots := Slotwise.resize s.slots c } ts := by
    refine ⟨⟨n + (c - s.slots.size), ?_⟩, h.stop_eq⟩
    simp only [hlist, hn, ← List.replicate_append_replicate, List.append_assoc]
  refine hgrown.eq (h.relocate 0 c) hf ?_
  rw [capacity_relocate h, capacity, ← Array.length_toList, hlist, List.length_append,
    List.length_replicate, Array.length_toList]
  unfold capacity at hc hle
  omega

/-! ## The back -/

theorem Regular.slotwise_makeRoom (h : s.Regular ts) :
    ∃ r : Spine, Slotwise.makeRoom s = some r ∧ r.Regular ts ∧ r.stop < r.capacity ∧
      ∀ t, s.push t = { r with slots := r.slots.setIfInBounds r.stop t, stop := r.stop + 1 } := by
  have hle := h.stop_le_capacity
  have hstop := h.stop_eq
  have hcap := h.capacity_eq
  unfold Slotwise.makeRoom Spine.push
  by_cases h1 : s.stop < s.capacity
  · have hne : ¬ s.stop = s.slots.size := Nat.ne_of_lt h1
    rw [if_neg hne, if_pos h1]
    exact ⟨s, rfl, h, h1, fun _ => rfl⟩
  have hfull : s.stop = s.slots.size := Nat.le_antisymm hle (Nat.not_lt.mp h1)
  rw [if_pos hfull, if_neg h1]
  by_cases h2 : 0 < s.first
  · obtain ⟨slots, hrotate, hmoved⟩ := h.rotate_front
    have hminus : Slotwise.minus s.stop s.first = some ts.length := by
      rw [Slotwise.minus, if_pos (by omega), hstop, Nat.add_sub_cancel_left]
    have hroom := capacity_relocate h.toHolds 0 s.capacity
    have hend := (h.relocate 0 s.capacity).stop_eq
    rw [if_pos h2, if_pos h2]
    refine ⟨s.relocate 0 s.capacity, ?_, ⟨h.relocate 0 s.capacity, ?_⟩, ?_, fun _ => rfl⟩
    · simp only [hrotate, hminus, bind, Option.bind, hmoved]
      rfl
    · omega
    · rw [hroom, hend]
      show 0 + ts.length < _
      omega
  · have hgrown := h.grow (show s.first = 0 by omega)
      (show s.capacity ≤ max (2 * s.capacity) leastCapacity by omega)
    have hroom := capacity_relocate h.toHolds 0 (max (2 * s.capacity) leastCapacity)
    have hend := (h.relocate 0 (max (2 * s.capacity) leastCapacity)).stop_eq
    have hleast : 0 < leastCapacity := by decide
    rw [if_neg h2, if_neg h2]
    refine ⟨s.relocate 0 (max (2 * s.capacity) leastCapacity), congrArg some hgrown,
      ⟨h.relocate 0 _, ?_⟩, ?_, fun _ => rfl⟩
    · omega
    · rw [hroom, hend]
      show 0 + ts.length < _
      omega

theorem Regular.slotwise_push (h : s.Regular ts) (t : Term) :
    Slotwise.push s t = some (s.push t) ∧ (s.push t).Regular (ts ++ [t]) := by
  obtain ⟨r, hr, hregular, hlt, hpush⟩ := h.slotwise_makeRoom
  rw [hpush t]
  refine ⟨?_, hregular.store_back hlt t, ?_⟩
  · rw [Slotwise.push, hr]
    show (Slotwise.write r.slots r.stop t).bind _ = _
    rw [Slotwise.write, if_pos (show r.stop < r.slots.size from hlt)]
    rfl
  · simpa [capacity] using hregular.capacity_eq

theorem slotwise_back (h : s.Holds ts) {n : Nat} (hn : n ≤ s.stop) :
    Slotwise.back s n =
      some (List.replicate (n - ts.length) Term.nil ++ ts.drop (ts.length - n)).toArray := by
  have hback := h.back hn
  rw [Spine.back, if_pos hn, Except.ok.injEq] at hback
  have hle := h.stop_le_capacity
  unfold capacity at hle
  have hstart : Slotwise.minus s.stop n = some (s.stop - n) := if_pos hn
  rw [Slotwise.back, hstart, ← hback]
  exact if_pos (by omega)

theorem size_free (slots : Array Term) (start n : Nat) :
    (free slots start n).size = slots.size := by
  induction n generalizing slots with
  | zero => rfl
  | succ n ih => rw [free, ih, Array.size_setIfInBounds]

theorem Regular.slotwise_dropBack (h : s.Regular ts) {n : Nat} (hn : n ≤ ts.length) :
    ∃ s', Slotwise.dropBack s n = some s' ∧ s.dropBack n = .ok s' ∧
      s'.Regular (ts.take (ts.length - n)) := by
  obtain ⟨s', hdrop, hholds⟩ := h.toHolds.dropBack hn
  have hstop := h.stop_eq
  have hle := h.stop_le_capacity
  unfold capacity at hle
  have hstart : Slotwise.minus s.stop n = some (s.stop - n) := if_pos (by omega)
  have hfill : Slotwise.fill s.slots (s.stop - n) s.stop = some (free s.slots (s.stop - n) n) := by
    rw [Slotwise.fill, if_pos (by omega), Nat.sub_sub_self (by omega)]
  have hs' := hdrop
  rw [Spine.dropBack, if_pos (by rwa [h.size_eq]), Except.ok.injEq] at hs'
  refine ⟨s', ?_, hdrop, hholds, ?_⟩
  · simp only [Slotwise.dropBack, hstart, hfill, bind, Option.bind]
    exact congrArg some hs'
  · rw [← hs', capacity, size_free]
    exact h.capacity_eq

theorem Regular.slotwise_popBack (h : s.Regular ts) :
    ∃ s', Slotwise.popBack s = some (ts.getLast?, s') ∧
      s.popBack? = ts.getLast?.map (·, s') ∧ (ts = [] → s' = s) ∧ s'.Regular ts.dropLast := by
  have hempty := h.isEmpty_eq
  cases ts using List.reverseRecOn with
  | nil =>
    have he : s.isEmpty = true := hempty
    refine ⟨s, ?_, ?_, fun _ => rfl, h⟩
    · rw [Slotwise.popBack, if_pos he]
      rfl
    · rw [Spine.popBack?, if_pos he]
      rfl
  | append_singleton ts t =>
    have he : ¬ s.isEmpty = true := by simp [hempty]
    obtain ⟨s', hdrop, -, hregular⟩ := h.slotwise_dropBack (n := 1) (by simp)
    have hstop := h.stop_eq
    have hle := h.stop_le_capacity
    unfold capacity at hle
    rw [List.length_append, List.length_singleton] at hstop
    have hget : s.slots[s.stop - 1]? = some t := by
      obtain ⟨n, hn⟩ := h.slots_eq
      rw [← Array.getElem?_toList, hn, show s.stop - 1 = s.first + ts.length by omega]
      simp
    have hlast : Slotwise.minus s.stop 1 = some (s.stop - 1) := if_pos (by omega)
    have hwrite : Slotwise.write s.slots (s.stop - 1) .nil =
        some (s.slots.setIfInBounds (s.stop - 1) .nil) := if_pos (by omega)
    -- the slot that is left free is the last one
    have hs' : s' = { s with
        slots := s.slots.setIfInBounds (s.stop - 1) .nil
        stop := s.stop - 1 } := by
      have hfill : Slotwise.fill s.slots (s.stop - 1) s.stop =
          some (s.slots.setIfInBounds (s.stop - 1) .nil) := by
        rw [Slotwise.fill, if_pos (by omega), Nat.sub_sub_self (by omega)]
        rfl
      simp only [Slotwise.dropBack, hlast, hfill, bind, Option.bind] at hdrop
      exact (Option.some.inj hdrop).symm
    rw [List.getLast?_concat, List.dropLast_concat]
    refine ⟨s', ?_, ?_, by simp, ?_⟩
    · rw [Slotwise.popBack, if_neg he, hs']
      simp only [hlast, hget, hwrite, bind, Option.bind]
      rfl
    · rw [Spine.popBack?, if_neg he, hs']
      simp only [hget]
      rfl
    · simpa using hregular

/-! ## The front -/

theorem doubled_of_le {needed c : Nat} (h : needed ≤ c) : doubled needed c = c := by
  rw [doubled, if_pos (.inl h)]

theorem le_doubled (needed c : Nat) : c ≤ doubled needed c := by
  fun_induction doubled needed c with
  | case1 => exact Nat.le_refl _
  | case2 c h ih => omega

theorem needed_le_doubled {needed c : Nat} (hc : c ≠ 0) : needed ≤ doubled needed c := by
  fun_induction doubled needed c with
  | case1 c h => exact h.resolve_right hc
  | case2 c h ih => exact ih (by omega)

theorem Regular.enlarge (h : s.Regular ts) {needed : Nat} (hn : 0 < needed) :
    ∃ slots, (if s.slots.size < needed then
        Slotwise.resize s.slots (doubled needed (max s.slots.size leastCapacity))
      else s.slots) = slots ∧ Holds { s with slots := slots } ts ∧
        slots.size = doubled needed (max s.capacity leastCapacity) := by
  obtain ⟨n, hslots⟩ := h.slots_eq
  by_cases hlt : s.slots.size < needed
  · have hle := le_doubled needed (max s.slots.size leastCapacity)
    have hlist := Slotwise.toList_resize (doubled needed (max s.slots.size leastCapacity))
      (show s.slots.size ≤ _ by omega)
    refine ⟨_, if_pos hlt, ⟨⟨n + (doubled needed (max s.slots.size leastCapacity) - s.slots.size),
      ?_⟩, h.stop_eq⟩, ?_⟩
    · simp only [hlist, hslots, ← List.replicate_append_replicate, List.append_assoc]
    · rw [← Array.length_toList, hlist, List.length_append, List.length_replicate,
        Array.length_toList]
      unfold capacity
      omega
  · -- there are slots, so there are enough to begin with
    have hmax : max s.capacity leastCapacity = s.capacity := by
      have := h.capacity_eq
      unfold capacity at *
      omega
    refine ⟨s.slots, if_neg hlt, h.toHolds, ?_⟩
    rw [hmax]
    exact (doubled_of_le (Nat.not_lt.mp hlt)).symm

theorem Holds.rotate_back (h : s.Holds ts) {n : Nat} (hn : s.first ≤ n)
    (hfits : n + ts.length ≤ s.capacity) :
    ∃ slots, Slotwise.rotate s.slots (n + ts.length) s.stop = some slots ∧
      slots.size = s.capacity ∧
      Holds ⟨slots, 0, n + ts.length⟩ (List.replicate n .nil ++ ts) := by
  have hstop := h.stop_eq
  obtain ⟨k, hk⟩ := h.slots_eq
  have hcap := h.capacity_eq_add hk
  -- free slots behind the arguments come to the front
  have hsplit : s.slots.toList = (List.replicate s.first .nil ++ ts) ++
      (List.replicate (n - s.first) .nil ++ List.replicate (k - (n - s.first)) .nil) := by
    rw [List.replicate_append_replicate, Nat.add_sub_cancel' (by omega), List.append_assoc]
    exact hk
  have hfront : List.replicate n Term.nil =
      List.replicate (n - s.first) .nil ++ List.replicate s.first .nil := by
    rw [List.replicate_append_replicate, Nat.sub_add_cancel hn]
  obtain ⟨slots, hslots, hlist⟩ := Slotwise.rotate_eq_some hsplit
  simp only [List.length_append, List.length_replicate, ← hstop] at hslots
  rw [show s.stop + (n - s.first) = n + ts.length by omega] at hslots
  refine ⟨slots, hslots, ?_, ⟨k - (n - s.first), ?_⟩, ?_⟩
  · rw [← Array.length_toList, hlist]
    simp only [List.length_append, List.length_replicate]
    omega
  · rw [hlist, hfront]
    simp only [List.append_assoc, List.replicate_zero, List.nil_append]
  · simp only [List.length_append, List.length_replicate, Nat.zero_add]

theorem Regular.slotwise_makeRoomInFront (h : s.Regular ts) (n : Nat) :
    Slotwise.makeRoomInFront s n = some (s.reserveFront n) ∧
      (s.reserveFront n).Regular (List.replicate n .nil ++ ts) := by
  have hholds := h.toHolds.reserveFront n
  have hstop := h.stop_eq
  have hsize := h.size_eq
  unfold Slotwise.makeRoomInFront Spine.reserveFront
  unfold Spine.reserveFront at hholds
  by_cases hn : n ≤ s.first
  · rw [if_pos hn, if_pos hn]
    rw [if_pos hn] at hholds
    exact ⟨rfl, hholds, h.capacity_eq⟩
  have hmissing : Slotwise.minus n s.first = some (n - s.first) := if_pos (by omega)
  have hback : Slotwise.minus (n + s.size) (n - s.first) = some s.stop := by
    rw [Slotwise.minus, if_pos (by omega)]
    exact congrArg some (by omega)
  have hleast : 0 < leastCapacity := by decide
  have hfits : n + s.size ≤ doubled (n + s.size) (max s.capacity leastCapacity) :=
    needed_le_doubled (by omega)
  have hle := le_doubled (n + s.size) (max s.capacity leastCapacity)
  have hroom := capacity_relocate h.toHolds n (doubled (n + s.size) (max s.capacity leastCapacity))
  obtain ⟨slots, hslots, henlarged, hcap⟩ := h.enlarge (show 0 < n + s.size by omega)
  obtain ⟨rotated, hrotate, hrotated, hmoved⟩ := henlarged.rotate_back (n := n)
    (Nat.le_of_not_le hn) (show n + ts.length ≤ slots.size by omega)
  rw [← hsize] at hrotate hmoved
  rw [if_neg hn, if_neg hn]
  rw [if_neg hn] at hholds
  have heq := hmoved.eq hholds rfl (hrotated.trans (show slots.size = _ by
    rw [hcap]
    exact (Nat.max_eq_left (by omega)).symm.trans hroom.symm))
  refine ⟨?_, hholds, ?_⟩
  · simp only [hmissing, bind, Option.bind, show s.stop + (n - s.first) = n + s.size by omega,
      hback, hslots, hrotate]
    exact congrArg some heq
  · right
    show leastCapacity ≤ (s.relocate n _).capacity
    omega

theorem Holds.slotwise_slice {us : List Term} (h : s.Holds (us ++ ts)) :
    Slotwise.slice s.slots s.first (s.first + us.length) = some us.toArray := by
  obtain ⟨n, hn⟩ := h.slots_eq
  have hsize : s.slots.size = s.first + (us.length + ts.length) + n := by
    rw [← Array.length_toList, hn]
    simp only [List.length_append, List.length_replicate]
    omega
  rw [Slotwise.slice, if_pos (by omega)]
  apply congrArg some
  rw [← Array.toList_inj, Array.toList_extract, List.extract_eq_take_drop, hn,
    List.drop_left' List.length_replicate, Nat.add_sub_cancel_left, List.append_assoc,
    List.take_left]

theorem Regular.slotwise_reserveFront (h : s.Regular ts) (n : Nat) :
    Slotwise.reserveFront s n = some (Array.replicate n .nil, s.reserveFront n) ∧
      (s.reserveFront n).Regular (List.replicate n .nil ++ ts) := by
  obtain ⟨hroom, hregular⟩ := h.slotwise_makeRoomInFront n
  have hslice := hregular.toHolds.slotwise_slice
  rw [List.length_replicate, List.toArray_replicate] at hslice
  refine ⟨?_, hregular⟩
  simp only [Slotwise.reserveFront, hroom, hslice, bind, Option.bind]
  rfl

theorem Regular.slotwise_overwrite (h : s.Regular ts) {i : Nat} (hi : i < ts.length) (t : Term) :
    ∃ r : Spine, Slotwise.overwrite s i t = some r ∧ r.Regular (ts.set i t) ∧
      r.first = s.first ∧ r.capacity = s.capacity := by
  have hle := h.stop_le_capacity
  have hstop := h.stop_eq
  refine ⟨{ s with slots := s.slots.setIfInBounds (s.first + i) t }, ?_, ⟨⟨?_, ?_⟩, ?_⟩, rfl,
    Array.size_setIfInBounds⟩
  · unfold capacity at hle
    rw [Slotwise.overwrite, Slotwise.write, if_pos (by omega)]
    rfl
  · obtain ⟨n, hn⟩ := h.slots_eq
    refine ⟨n, ?_⟩
    simp [hn, hi]
  · rw [List.length_set]
    exact hstop
  · rw [capacity, Array.size_setIfInBounds]
    exact h.capacity_eq

theorem size_store (slots : Array Term) (start : Nat) (us : List Term) :
    (store slots start us).size = slots.size := by
  induction us generalizing slots start with
  | nil => rfl
  | cons u us ih => rw [store, ih, Array.size_setIfInBounds]

theorem Regular.slotwise_overwriteFront {us : List Term} (h : s.Regular (us ++ ts))
    {writes : List (Nat × Term)} (hw : ∀ w ∈ writes, w.1 < us.length) :
    let written := writes.foldl (fun us w => us.set w.1 w.2) us
    writes.foldlM (fun s w => Slotwise.overwrite s w.1 w.2) s = some (s.overwriteFront written) ∧
      (s.overwriteFront written).Regular (written ++ ts) := by
  have hfold : ∀ {writes : List (Nat × Term)} {us : List Term} {s : Spine},
      s.Regular (us ++ ts) → (∀ w ∈ writes, w.1 < us.length) →
        ∃ r : Spine, writes.foldlM (fun s w => Slotwise.overwrite s w.1 w.2) s = some r ∧
          r.Regular (writes.foldl (fun us w => us.set w.1 w.2) us ++ ts) ∧
          r.first = s.first ∧ r.capacity = s.capacity ∧
          (writes.foldl (fun us w => us.set w.1 w.2) us).length = us.length := by
    intro writes
    induction writes with
    | nil => intro us s h _; exact ⟨s, rfl, h, rfl, rfl, rfl⟩
    | cons w writes ih =>
      intro us s h hw
      have hlt := hw w List.mem_cons_self
      obtain ⟨r₁, hr₁, h₁, hf₁, hc₁⟩ := h.slotwise_overwrite
        (show w.1 < (us ++ ts).length by rw [List.length_append]; omega) w.2
      rw [List.set_append_left _ _ hlt] at h₁
      obtain ⟨r, hr, h₂, hf₂, hc₂, hlen⟩ := ih h₁ fun v hv => by
        rw [List.length_set]
        exact hw v (List.mem_cons_of_mem _ hv)
      rw [List.length_set] at hlen
      refine ⟨r, ?_, h₂, hf₂.trans hf₁, hc₂.trans hc₁, hlen⟩
      rw [List.foldlM_cons, hr₁]
      exact hr
  intro written
  obtain ⟨r, hr, hregular, hfirst, hcap, hlen⟩ := hfold h hw
  have hholds := h.toHolds.overwriteFront (show written.length ≤ (us ++ ts).length by
    rw [hlen, List.length_append]
    omega)
  rw [hlen, List.drop_left] at hholds
  have heq : r = s.overwriteFront written :=
    hregular.toHolds.eq hholds hfirst (hcap.trans (size_store _ _ _).symm)
  rw [hr, ← heq]
  exact ⟨rfl, hregular⟩

theorem Regular.slotwise_popFront (h : s.Regular ts) :
    ∃ s', Slotwise.popFront s = some (ts.head?, s') ∧
      s.popFront? = ts.head?.map (·, s') ∧ (ts = [] → s' = s) ∧ s'.Regular ts.tail := by
  have hempty := h.isEmpty_eq
  cases ts with
  | nil =>
    have he : s.isEmpty = true := hempty
    refine ⟨s, ?_, ?_, fun _ => rfl, h⟩
    · rw [Slotwise.popFront, if_pos he]
      rfl
    · rw [Spine.popFront?, if_pos he]
      rfl
  | cons t ts =>
    have he : ¬ s.isEmpty = true := by simp [hempty]
    have hstop := h.stop_eq
    have hle := h.stop_le_capacity
    unfold capacity at hle
    rw [List.length_cons] at hstop
    obtain ⟨n, hn⟩ := h.slots_eq
    have hget : s.slots[s.first]? = some t := by
      rw [← Array.getElem?_toList, hn]
      simp
    have hwrite : Slotwise.write s.slots s.first .nil =
        some (s.slots.setIfInBounds s.first .nil) := if_pos (by omega)
    refine ⟨{ s with slots := s.slots.setIfInBounds s.first .nil, first := s.first + 1 },
      ?_, ?_, by simp, ⟨⟨n, ?_⟩, ?_⟩, ?_⟩
    · rw [Slotwise.popFront, if_neg he]
      simp only [hget, hwrite, bind, Option.bind]
      rfl
    · rw [Spine.popFront?, if_neg he]
      simp only [hget]
      rfl
    · simp [hn, List.replicate_succ', List.append_assoc]
    · show s.stop = s.first + 1 + ts.length
      omega
    · rw [capacity, Array.size_setIfInBounds]
      exact h.capacity_eq

theorem Regular.slotwise_clear (h : s.Regular ts) :
    Slotwise.clear s = some s.clear ∧ s.clear.Regular [] := by
  have hstop := h.stop_eq
  have hle := h.stop_le_capacity
  unfold capacity at hle
  have hfill : Slotwise.fill s.slots s.first s.stop = some (free s.slots s.first s.size) :=
    if_pos (by omega)
  refine ⟨?_, h.toHolds.clear, ?_⟩
  · simp only [Slotwise.clear, hfill, bind, Option.bind]
    rfl
  · rw [clear, capacity, size_free]
    exact h.capacity_eq

theorem slotwise_size (h : s.Holds ts) : Slotwise.size s = some ts.length := by
  have hstop := h.stop_eq
  rw [Slotwise.size, Slotwise.minus, if_pos (by omega), hstop, Nat.add_sub_cancel_left]

end

end Spine

end WeakHead
