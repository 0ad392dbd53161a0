import Mathlib.Data.List.Induction
import WeakHead.Spine

/-!
# Spines as lists

A spine holds a list if its arguments are that list, front first, and every
other slot is free. Each operation on the slots is the operation on the list
that its name says, whichever way it finds the room.
-/

namespace WeakHead

namespace Spine

/-- The slots are free ones, the arguments `ts` from `first` on, and free ones again. -/
structure Holds (s : Spine) (ts : List Term) : Prop where
  slots_eq : ∃ n, s.slots.toList = List.replicate s.first .nil ++ (ts ++ List.replicate n .nil)
  stop_eq : s.stop = s.first + ts.length

theorem holds_empty : Holds .empty [] := ⟨⟨0, rfl⟩, rfl⟩

section
variable {s : Spine} {ts : List Term}

/-! ## Views -/

theorem Holds.size_eq (h : s.Holds ts) : s.size = ts.length := by
  rw [size, h.stop_eq, Nat.add_sub_cancel_left]

theorem Holds.isEmpty_eq (h : s.Holds ts) : s.isEmpty = ts.isEmpty := by
  rw [isEmpty, h.stop_eq]
  cases ts <;> simp

theorem Holds.stop_le_capacity (h : s.Holds ts) : s.stop ≤ s.capacity := by
  obtain ⟨n, hn⟩ := h.slots_eq
  rw [capacity, ← Array.length_toList, hn, h.stop_eq]
  simp only [List.length_append, List.length_replicate]
  omega

theorem Holds.extract_eq (h : s.Holds ts) (k : Nat) :
    (s.slots.extract k s.stop).toList =
      List.replicate (s.first - k) .nil ++ ts.drop (k - s.first) := by
  obtain ⟨n, hn⟩ := h.slots_eq
  rw [Array.toList_extract, List.extract_eq_take_drop, ← List.drop_take, hn, ← List.append_assoc,
    List.take_left' (by simp [h.stop_eq]), List.drop_append, List.drop_replicate,
    List.length_replicate]

theorem Holds.toList_eq (h : s.Holds ts) : s.toList = ts := by
  rw [toList, toArray, h.extract_eq]
  simp

theorem Holds.nearest_eq (h : s.Holds ts) : s.nearest = ts.getLast?.getD .nil := by
  rw [nearest, h.isEmpty_eq]
  cases ts using List.reverseRecOn with
  | nil => rfl
  | append_singleton ts t =>
    obtain ⟨n, hn⟩ := h.slots_eq
    have hstop : s.stop - 1 = s.first + ts.length := by
      rw [h.stop_eq, List.length_append, List.length_singleton]
      omega
    have hget : s.slots[s.stop - 1]? = some t := by
      rw [← Array.getElem?_toList, hn, hstop]
      simp
    simp [hget]

/-! ## Slots one after the other -/

theorem toList_free {slots : Array Term} {start : Nat} {before after : List Term} :
    ∀ {taken : List Term}, slots.toList = before ++ (taken ++ after) → before.length = start →
      (free slots start taken.length).toList =
        before ++ (List.replicate taken.length .nil ++ after) := by
  intro taken
  induction taken using List.reverseRecOn generalizing slots after with
  | nil => intro h _; simpa [free] using h
  | append_singleton taken t ih =>
    intro h hb
    have hset : (slots.setIfInBounds (start + taken.length) .nil).toList =
        before ++ (taken ++ .nil :: after) := by
      rw [Array.toList_setIfInBounds, h, ← hb]
      simp
    rw [List.length_append, List.length_singleton, free, ih hset hb, List.replicate_succ']
    simp

theorem toList_store {after : List Term} : ∀ {us : List Term} {slots : Array Term} {start : Nat}
    {before taken : List Term}, slots.toList = before ++ (taken ++ after) → before.length = start →
      taken.length = us.length → (store slots start us).toList = before ++ (us ++ after)
  | [], slots, start, before, taken, h, _, hl => by
    rw [List.eq_nil_of_length_eq_zero hl] at h
    simpa [store] using h
  | u :: us, slots, start, before, [], _, _, hl => by simp at hl
  | u :: us, slots, start, before, t :: taken, h, hb, hl => by
    have hset : (slots.setIfInBounds start u).toList = (before ++ [u]) ++ (taken ++ after) := by
      rw [Array.toList_setIfInBounds, h, ← hb]
      simp
    rw [store, toList_store hset (by simp [hb]) (by simpa using hl)]
    simp

theorem Holds.relocate (h : s.Holds ts) (front capacity : Nat) :
    (s.relocate front capacity).Holds ts := by
  refine ⟨⟨capacity - (front + s.size), ?_⟩, ?_⟩
  · have hts : s.toArray.toList = ts := h.toList_eq
    simp [Spine.relocate, hts]
  · rw [Spine.relocate, h.size_eq]

theorem capacity_relocate (h : s.Holds ts) (front capacity : Nat) :
    (s.relocate front capacity).capacity = max capacity (front + ts.length) := by
  have hts : s.toArray.size = ts.length := by
    rw [← Array.length_toList]
    exact congrArg _ h.toList_eq
  simp only [Spine.relocate, Spine.capacity, Array.size_append, Array.size_replicate, hts,
    h.size_eq]
  omega

/-! ## The back -/

theorem Holds.store_back (h : s.Holds ts) (hroom : s.stop < s.capacity) (t : Term) :
    Holds { s with slots := s.slots.setIfInBounds s.stop t, stop := s.stop + 1 } (ts ++ [t]) := by
  obtain ⟨n, hn⟩ := h.slots_eq
  cases n with
  | zero =>
    rw [capacity, ← Array.length_toList, hn, h.stop_eq] at hroom
    simp at hroom
  | succ n =>
    refine ⟨⟨n, ?_⟩, ?_⟩
    · simp only [Array.toList_setIfInBounds, hn, h.stop_eq]
      simp [List.replicate_succ]
    · simp only [h.stop_eq, List.length_append, List.length_singleton]
      omega

theorem Holds.push (h : s.Holds ts) (t : Term) : (s.push t).Holds (ts ++ [t]) := by
  have hstop := h.stop_eq
  have hcap := h.stop_le_capacity
  unfold Spine.push
  by_cases h1 : s.stop < s.capacity
  · rw [if_pos h1]
    exact h.store_back h1 t
  rw [if_neg h1]
  by_cases h2 : 0 < s.first
  · rw [if_pos h2]
    refine (h.relocate 0 s.capacity).store_back ?_ t
    rw [capacity_relocate h, (h.relocate 0 s.capacity).stop_eq]
    show 0 + ts.length < _
    omega
  · rw [if_neg h2]
    refine (h.relocate 0 _).store_back ?_ t
    rw [capacity_relocate h, (h.relocate 0 _).stop_eq]
    show 0 + ts.length < _
    unfold leastCapacity
    omega

theorem Holds.back (h : s.Holds ts) {n : Nat} (hn : n ≤ s.stop) :
    s.back n =
      .ok (List.replicate (n - ts.length) Term.nil ++ ts.drop (ts.length - n)).toArray := by
  rw [Spine.back, if_pos hn, Except.ok.injEq, ← Array.toList_inj, h.extract_eq, h.stop_eq]
  rw [h.stop_eq] at hn
  rw [show s.first - (s.first + ts.length - n) = n - ts.length by omega,
    show s.first + ts.length - n - s.first = ts.length - n by omega]

theorem Holds.dropBack (h : s.Holds ts) {n : Nat} (hn : n ≤ ts.length) :
    ∃ s', s.dropBack n = .ok s' ∧ s'.Holds (ts.take (ts.length - n)) := by
  refine ⟨_, by rw [Spine.dropBack, if_pos (by rwa [h.size_eq])], ?_, ?_⟩
  · obtain ⟨m, hm⟩ := h.slots_eq
    have hsplit : s.slots.toList = (List.replicate s.first .nil ++ ts.take (ts.length - n)) ++
        (ts.drop (ts.length - n) ++ List.replicate m .nil) := by
      rw [hm, List.append_assoc, ← List.append_assoc (ts.take _), List.take_append_drop]
    have hlen : (ts.drop (ts.length - n)).length = n := by
      rw [List.length_drop]
      omega
    have hbefore :
        (List.replicate s.first Term.nil ++ ts.take (ts.length - n)).length = s.stop - n := by
      rw [List.length_append, List.length_replicate, List.length_take, h.stop_eq]
      omega
    have hfree := toList_free hsplit hbefore
    rw [hlen] at hfree
    exact ⟨n + m, by simp [hfree, ← List.replicate_append_replicate]⟩
  · simp only [List.length_take, h.stop_eq]
    omega

/-! ## The front -/

theorem Holds.reserveFront (h : s.Holds ts) (n : Nat) :
    (s.reserveFront n).Holds (List.replicate n .nil ++ ts) := by
  unfold Spine.reserveFront
  by_cases hn : n ≤ s.first
  · rw [if_pos hn]
    obtain ⟨m, hm⟩ := h.slots_eq
    refine ⟨⟨m, ?_⟩, ?_⟩
    · simp only [hm]
      rw [List.append_assoc, ← List.append_assoc (List.replicate (s.first - n) _),
        List.replicate_append_replicate, Nat.sub_add_cancel hn]
    · simp only [h.stop_eq, List.length_append, List.length_replicate]
      omega
  · rw [if_neg hn]
    obtain ⟨m, hm⟩ := (h.relocate n (doubled (n + s.size) (max s.capacity leastCapacity))).slots_eq
    refine ⟨⟨m, ?_⟩, ?_⟩
    · simp only [hm]
      simp [Spine.relocate]
    · simp only [List.length_append, List.length_replicate, Nat.zero_add]
      exact congrArg (n + ·) h.size_eq

theorem Holds.overwriteFront (h : s.Holds ts) {us : List Term} (hu : us.length ≤ ts.length) :
    (s.overwriteFront us).Holds (us ++ ts.drop us.length) := by
  obtain ⟨m, hm⟩ := h.slots_eq
  have hsplit : s.slots.toList = List.replicate s.first .nil ++
      (ts.take us.length ++ (ts.drop us.length ++ List.replicate m .nil)) := by
    rw [hm, ← List.append_assoc (ts.take _), List.take_append_drop]
  have htake : (ts.take us.length).length = us.length := by simp [hu]
  have hstore := toList_store hsplit List.length_replicate htake
  refine ⟨⟨m, ?_⟩, ?_⟩
  · simp only [Spine.overwriteFront, hstore, List.append_assoc]
  · simp only [Spine.overwriteFront, h.stop_eq, List.length_append, List.length_drop]
    omega

theorem Holds.clear (h : s.Holds ts) : s.clear.Holds [] := by
  obtain ⟨m, hm⟩ := h.slots_eq
  have hfree := toList_free hm List.length_replicate
  rw [← h.size_eq] at hfree
  refine ⟨⟨s.first + (s.size + m), ?_⟩, rfl⟩
  simp [Spine.clear, hfree, ← List.replicate_append_replicate]

end

end Spine

end WeakHead
