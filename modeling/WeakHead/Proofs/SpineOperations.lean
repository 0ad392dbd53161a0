import WeakHead.Proofs.Slotwise

/-!
# Spines are double-ended lists

What can be done to a spine, done to a list, to the spine and to its slots.
Over any sequence of operations that is possible on the list, all three hand
out the same terms and hold the same arguments.
-/

namespace WeakHead

namespace Spine

inductive Operation where
  | push (t : Term)
  | reserveFront (n : Nat) (writes : List (Nat × Term))
  | dropBack (n : Nat)
  | popBack
  | popFront
  | clear
  deriving DecidableEq, Repr

namespace Operation

def written (n : Nat) (writes : List (Nat × Term)) : List Term :=
  writes.foldl (fun us w => us.set w.1 w.2) (.replicate n .nil)

/-! ## On lists -/

def Possible (ts : List Term) : Operation → Prop
  | dropBack n => n ≤ ts.length
  | reserveFront n writes => ∀ w ∈ writes, w.1 < n
  | _ => True

def onList (ts : List Term) : Operation → List Term × List Term
  | push t => ([], ts ++ [t])
  | reserveFront n writes => (.replicate n .nil, written n writes ++ ts)
  | dropBack n => ([], ts.take (ts.length - n))
  | popBack => (ts.getLast?.toList, ts.dropLast)
  | popFront => (ts.head?.toList, ts.tail)
  | clear => ([], [])

/-! ## On spines and on slots -/

def onSpine (s : Spine) : Operation → Checked (List Term × Spine)
  | push t => return ([], s.push t)
  | reserveFront n writes =>
    let s := s.reserveFront n
    return ((s.slots.extract s.first (s.first + n)).toList, s.overwriteFront (written n writes))
  | dropBack n => return ([], ← s.dropBack n)
  | popBack =>
    match s.popBack? with
    | some (t, s) => return ([t], s)
    | none => return ([], s)
  | popFront =>
    match s.popFront? with
    | some (t, s) => return ([t], s)
    | none => return ([], s)
  | clear => return ([], s.clear)

def onSlots (s : Spine) : Operation → Option (List Term × Spine)
  | push t => return ([], ← Slotwise.push s t)
  | reserveFront n writes => do
    let (taken, s) ← Slotwise.reserveFront s n
    return (taken.toList, ← writes.foldlM (fun s w => Slotwise.overwrite s w.1 w.2) s)
  | dropBack n => return ([], ← Slotwise.dropBack s n)
  | popBack => do
    let (t, s) ← Slotwise.popBack s
    return (t.toList, s)
  | popFront => do
    let (t, s) ← Slotwise.popFront s
    return (t.toList, s)
  | clear => return ([], ← Slotwise.clear s)

/-! ## Sequences -/

section
variable {m : Type → Type} [Monad m] {σ : Type}

def all (perform : σ → Operation → m (List Term × σ)) :
    List Operation → σ → m (List (List Term) × σ)
  | [], s => return ([], s)
  | op :: ops, s => do
    let (taken, s) ← perform s op
    let (rest, s) ← all perform ops s
    return (taken :: rest, s)

end

def allOnList : List Operation → List Term → List (List Term) × List Term := all (m := Id) onList

def AllPossible : List Term → List Operation → Prop
  | _, [] => True
  | ts, op :: ops => op.Possible ts ∧ AllPossible (op.onList ts).2 ops

instance (ts : List Term) : (op : Operation) → Decidable (op.Possible ts)
  | push _ => .isTrue trivial
  | reserveFront n writes => inferInstanceAs (Decidable (∀ w ∈ writes, w.1 < n))
  | dropBack n => inferInstanceAs (Decidable (n ≤ ts.length))
  | popBack => .isTrue trivial
  | popFront => .isTrue trivial
  | clear => .isTrue trivial

instance decidableAllPossible : (ts : List Term) → (ops : List Operation) →
    Decidable (AllPossible ts ops)
  | _, [] => .isTrue trivial
  | ts, op :: ops =>
    have := decidableAllPossible (op.onList ts).2 ops
    inferInstanceAs (Decidable (_ ∧ _))

end Operation

section
variable {s : Spine} {ts : List Term}

theorem Regular.operation (h : s.Regular ts) {op : Operation} (hop : op.Possible ts) :
    ∃ s', op.onSlots s = some ((op.onList ts).1, s') ∧
      op.onSpine s = .ok ((op.onList ts).1, s') ∧ s'.Regular (op.onList ts).2 := by
  cases op with
  | push t =>
    obtain ⟨hslots, hregular⟩ := h.slotwise_push t
    exact ⟨_, by rw [Operation.onSlots, hslots]; rfl, rfl, hregular⟩
  | reserveFront n writes =>
    obtain ⟨hslots, hregular⟩ := h.slotwise_reserveFront n
    have hnew : ∀ w ∈ writes, w.1 < (List.replicate n Term.nil).length := by
      rw [List.length_replicate]
      exact hop
    obtain ⟨hwrites, hwritten⟩ := hregular.slotwise_overwriteFront hnew
    have hslice := hregular.toHolds.slotwise_slice
    rw [List.length_replicate, Slotwise.slice] at hslice
    obtain ⟨-, htaken⟩ := Option.ite_none_right_eq_some.mp hslice
    refine ⟨_, ?_, ?_, hwritten⟩
    · simp only [Operation.onSlots, hslots, hwrites, bind, Option.bind]
      simp [Operation.onList, Operation.written]
    · simp only [Operation.onSpine, Option.some.inj htaken]
      rfl
  | dropBack n =>
    obtain ⟨s', hslots, hspine, hregular⟩ := h.slotwise_dropBack hop
    refine ⟨s', ?_, ?_, hregular⟩
    · rw [Operation.onSlots, hslots]
      rfl
    · rw [Operation.onSpine, hspine]
      rfl
  | popBack =>
    obtain ⟨s', hslots, hspine, hnone, hregular⟩ := h.slotwise_popBack
    refine ⟨s', ?_, ?_, hregular⟩
    · rw [Operation.onSlots, hslots]
      rfl
    · rw [Operation.onSpine, hspine, Operation.onList]
      cases hlast : ts.getLast? with
      | none => rw [hnone (List.getLast?_eq_none_iff.mp hlast)]; rfl
      | some t => rfl
  | popFront =>
    obtain ⟨s', hslots, hspine, hnone, hregular⟩ := h.slotwise_popFront
    refine ⟨s', ?_, ?_, hregular⟩
    · rw [Operation.onSlots, hslots]
      rfl
    · rw [Operation.onSpine, hspine, Operation.onList]
      cases hhead : ts.head? with
      | none => rw [hnone (List.head?_eq_none_iff.mp hhead)]; rfl
      | some t => rfl
  | clear =>
    obtain ⟨hslots, hregular⟩ := h.slotwise_clear
    exact ⟨_, by rw [Operation.onSlots, hslots]; rfl, rfl, hregular⟩

open Operation in
theorem Regular.operations (h : s.Regular ts) {ops : List Operation} (hops : AllPossible ts ops) :
    ∃ s', all onSlots ops s = some ((allOnList ops ts).1, s') ∧
      all onSpine ops s = .ok ((allOnList ops ts).1, s') ∧ s'.Regular (allOnList ops ts).2 := by
  induction ops generalizing s ts with
  | nil => exact ⟨s, rfl, rfl, h⟩
  | cons op ops ih =>
    obtain ⟨hop, hrest⟩ := hops
    obtain ⟨s₁, hslots, hspine, h₁⟩ := h.operation hop
    obtain ⟨s', hslots', hspine', h'⟩ := ih h₁ hrest
    refine ⟨s', ?_, ?_, h'⟩
    · simp only [all, hslots, hslots', bind, Option.bind]
      rfl
    · simp only [all, hspine, hspine', bind, Except.bind]
      rfl

theorem Holds.eq_nil_of_getElem? (h : s.Holds ts) {i : Nat} (hi : i < s.first ∨ s.stop ≤ i)
    {t : Term} (ht : s.slots[i]? = some t) : t = .nil := by
  have hstop := h.stop_eq
  obtain ⟨n, hn⟩ := h.slots_eq
  rw [← Array.getElem?_toList, hn] at ht
  by_cases hfirst : i < s.first
  · rw [List.getElem?_append_left (by rwa [List.length_replicate])] at ht
    exact List.eq_of_mem_replicate (List.mem_of_getElem? ht)
  · rw [List.getElem?_append_right (by rw [List.length_replicate]; omega),
      List.getElem?_append_right (by rw [List.length_replicate]; omega)] at ht
    exact List.eq_of_mem_replicate (List.mem_of_getElem? ht)

end

open Operation in
/-- **A spine is a double-ended list.** A sequence of operations that is possible on a list never
asks for a slot that is not there, hands out what the list hands out and leaves the arguments of
the list, with free slots before and after them. -/
theorem operations_on_list (ops : List Operation) (h : AllPossible [] ops) :
    let ts := (allOnList ops []).2
    ∃ s, all onSlots ops .empty = some ((allOnList ops []).1, s) ∧
      all onSpine ops .empty = .ok ((allOnList ops []).1, s) ∧
      (s.toList = ts ∧ Slotwise.slice s.slots s.first s.stop = some ts.toArray) ∧
      (s.size = ts.length ∧ Slotwise.size s = some ts.length) ∧ s.isEmpty = ts.isEmpty ∧
      (s.first ≤ s.stop ∧ s.stop ≤ s.capacity) ∧
      (∀ i t, i < s.first ∨ s.stop ≤ i → s.slots[i]? = some t → t = .nil) ∧
      ∀ n ≤ s.stop,
        let last := (List.replicate (n - ts.length) Term.nil ++ ts.drop (ts.length - n)).toArray
        s.back n = .ok last ∧ Slotwise.back s n = some last := by
  intro ts
  obtain ⟨s, hslots, hspine, hregular⟩ := regular_empty.operations h
  have hholds : s.Holds ts := hregular.toHolds
  have hstop := hholds.stop_eq
  refine ⟨s, hslots, hspine, ⟨hholds.toList_eq, ?_⟩, ⟨hholds.size_eq, slotwise_size hholds⟩,
    hholds.isEmpty_eq, ⟨by omega, hholds.stop_le_capacity⟩, ?_, ?_⟩
  · have hall : s.Holds (ts ++ []) := by rwa [List.append_nil]
    have hslice := hall.slotwise_slice
    rwa [← hstop] at hslice
  · intro i t hi ht
    exact hholds.eq_nil_of_getElem? hi ht
  · intro n hn
    exact ⟨hholds.back hn, slotwise_back hholds hn⟩

open Operation in
theorem operations_on_list_full :
    let ops : List Operation := (List.range 16).map (fun i => .push (.atom 0 i.toUInt32)) ++
      [.popFront, .push (.var 0 1), .popFront, .reserveFront 3 [(1, .var 0 2)], .dropBack 2,
        .popBack]
    AllPossible [] ops ∧ ∃ s, all onSlots ops .empty = some ((allOnList ops []).1, s) ∧
      s.toList = .nil :: .var 0 2 :: .nil ::
        (List.range 12).map fun i => .atom 0 (i + 2).toUInt32 := by
  -- sixteen arguments fill the slots, one more is pushed by rotation, and then the front is short
  intro ops
  have h : AllPossible [] ops := by decide
  obtain ⟨s, hslots, -, ⟨hlist, -⟩, -⟩ := operations_on_list ops h
  exact ⟨h, s, hslots, hlist.trans (by decide)⟩

end Spine

end WeakHead
