import WeakHead.Term

/-!
# Reach of terms

An application carries the range of its loose indices. The range is a word
and saturates, so it says how far a term reaches only if no index is the
greatest word. Then a range of at most `d` means that `d` binders around the
term bind every index in it.
-/

namespace WeakHead

namespace Term

/-- Every application carries the range of its two children. No other term can be built with
`var`, `atom`, `apply` and `addBinders`. -/
def Coherent : Term → Prop
  | .var _ _ => True
  | .atom _ _ => True
  | .app _ range func arg =>
    range = max func.looseRange arg.looseRange ∧ func.Coherent ∧ arg.Coherent

def IndicesSmall : Term → Prop
  | .var _ index => index.toNat ≤ UInt32.size - 2
  | .atom _ _ => True
  | .app _ _ func arg => func.IndicesSmall ∧ arg.IndicesSmall

def ScopedUnder : Nat → Term → Prop
  | d, .var binders index => index.toNat < d + binders.toNat
  | _, .atom _ _ => True
  | d, .app binders _ func arg =>
    func.ScopedUnder (d + binders.toNat) ∧ arg.ScopedUnder (d + binders.toNat)

abbrev Closed (t : Term) : Prop := t.ScopedUnder 0

/-- What a machine may be given as a program. -/
structure Sealed (t : Term) : Prop where
  coherent : t.Coherent
  indicesSmall : t.IndicesSmall
  closed : t.Closed

/-! ## Deciding -/

instance decidableCoherent : (t : Term) → Decidable t.Coherent
  | .var _ _ => .isTrue trivial
  | .atom _ _ => .isTrue trivial
  | .app _ range func arg =>
    have := decidableCoherent func
    have := decidableCoherent arg
    inferInstanceAs (Decidable (range = max func.looseRange arg.looseRange ∧ _ ∧ _))

instance decidableIndicesSmall : (t : Term) → Decidable t.IndicesSmall
  | .var _ index => inferInstanceAs (Decidable (index.toNat ≤ UInt32.size - 2))
  | .atom _ _ => .isTrue trivial
  | .app _ _ func arg =>
    have := decidableIndicesSmall func
    have := decidableIndicesSmall arg
    inferInstanceAs (Decidable (_ ∧ _))

instance decidableScopedUnder : (d : Nat) → (t : Term) → Decidable (t.ScopedUnder d)
  | d, .var binders index => inferInstanceAs (Decidable (index.toNat < d + binders.toNat))
  | _, .atom _ _ => .isTrue trivial
  | d, .app binders _ func arg =>
    have := decidableScopedUnder (d + binders.toNat) func
    have := decidableScopedUnder (d + binders.toNat) arg
    inferInstanceAs (Decidable (_ ∧ _))

instance (t : Term) : Decidable t.Sealed :=
  decidable_of_iff (t.Coherent ∧ t.IndicesSmall ∧ t.Closed)
    ⟨fun h => ⟨h.1, h.2.1, h.2.2⟩, fun h => ⟨h.coherent, h.indicesSmall, h.closed⟩⟩

/-! ## Range and scope -/

theorem toNat_max (a b : UInt32) : (max a b).toNat = max a.toNat b.toNat := by
  rw [show max a b = if a ≤ b then b else a from rfl]
  split <;> rename_i h <;> rw [UInt32.le_iff_toNat_le] at h <;> omega

theorem looseRange_le_iff {t : Term} (hc : t.Coherent) (hi : t.IndicesSmall) (d : Nat) :
    t.looseRange.toNat ≤ d ↔ t.ScopedUnder d := by
  induction t generalizing d with
  | var binders index =>
    have hs : index.toNat ≤ UInt32.size - 2 := hi
    simp only [looseRange, ScopedUnder, Word.toNat_monus, Word.toNat_next]
    simp only [UInt32.size] at hs ⊢
    omega
  | atom => simp [looseRange, ScopedUnder]
  | app binders range func arg ihf iha =>
    obtain ⟨hr, hcf, hca⟩ := hc
    rw [looseRange, Word.toNat_monus, hr, toNat_max, ScopedUnder, ← ihf hcf hi.1, ← iha hca hi.2]
    omega

theorem range_le_iff {binders range : UInt32} {func arg : Term}
    (hc : (Term.app binders range func arg).Coherent)
    (hi : (Term.app binders range func arg).IndicesSmall) (d : Nat) :
    range.toNat ≤ d ↔ func.ScopedUnder d ∧ arg.ScopedUnder d := by
  obtain ⟨hr, hcf, hca⟩ := hc
  rw [hr, toNat_max, ← looseRange_le_iff hcf hi.1, ← looseRange_le_iff hca hi.2]
  omega

theorem isClosed_iff {t : Term} (hc : t.Coherent) (hi : t.IndicesSmall) :
    t.isClosed = true ↔ t.Closed := by
  show _ ↔ t.ScopedUnder 0
  rw [← looseRange_le_iff hc hi, isClosed, beq_iff_eq, ← UInt32.toNat_inj]
  simp

theorem Sealed.isClosed {t : Term} (h : t.Sealed) : t.isClosed = true :=
  (isClosed_iff h.coherent h.indicesSmall).mpr h.closed

theorem ScopedUnder.mono {t : Term} {c d : Nat} (h : t.ScopedUnder c) (hcd : c ≤ d) :
    t.ScopedUnder d := by
  induction t generalizing c d with
  | var => exact Nat.lt_of_lt_of_le h (by omega)
  | atom => trivial
  | app _ _ _ _ ihf iha => exact ⟨ihf h.1 (by omega), iha h.2 (by omega)⟩

/-! ## Construction -/

section
variable {n : UInt32} {t u func arg : Term}

@[simp] theorem coherent_withBinders : (t.withBinders n).Coherent ↔ t.Coherent := by
  cases t <;> rfl

@[simp] theorem indicesSmall_withBinders : (t.withBinders n).IndicesSmall ↔ t.IndicesSmall := by
  cases t <;> rfl

theorem scopedUnder_withBinders (d : Nat) :
    (t.withBinders n).ScopedUnder d ↔ t.body.ScopedUnder (d + n.toNat) := by
  cases t <;> simp [withBinders, body, ScopedUnder]

theorem scopedUnder_iff_body (d : Nat) :
    t.ScopedUnder d ↔ t.body.ScopedUnder (d + t.binders.toNat) := by
  rw [← scopedUnder_withBinders, withBinders_binders]

@[simp] theorem coherent_apply : (func.apply arg).Coherent ↔ func.Coherent ∧ arg.Coherent := by
  simp [apply, Coherent]

@[simp] theorem indicesSmall_apply :
    (func.apply arg).IndicesSmall ↔ func.IndicesSmall ∧ arg.IndicesSmall := Iff.rfl

theorem addBinders_zero (t : Term) : t.addBinders 0 = .ok t :=
  addBinders_eq_ok_iff.mpr ⟨by simp, by simp⟩

theorem exists_addBinders (h : t.binders.toNat + n.toNat < UInt32.size) :
    ∃ u, t.addBinders n = .ok u := by
  refine ⟨t.withBinders (t.binders + n), addBinders_eq_ok_iff.mpr ⟨?_, ?_⟩⟩
  · rw [binders_withBinders, UInt32.toNat_add]
    exact Nat.mod_eq_of_lt h
  · rw [binders_withBinders]

theorem Coherent.addBinders (ht : t.Coherent) (h : t.addBinders n = .ok u) : u.Coherent := by
  rw [(addBinders_eq_ok_iff.mp h).2, coherent_withBinders]
  exact ht

theorem IndicesSmall.addBinders (ht : t.IndicesSmall) (h : t.addBinders n = .ok u) :
    u.IndicesSmall := by
  rw [(addBinders_eq_ok_iff.mp h).2, indicesSmall_withBinders]
  exact ht

theorem scopedUnder_addBinders (h : t.addBinders n = .ok u) (d : Nat) :
    u.ScopedUnder d ↔ t.ScopedUnder (d + n.toNat) := by
  obtain ⟨hn, hu⟩ := addBinders_eq_ok_iff.mp h
  rw [hu, scopedUnder_withBinders, hn, scopedUnder_iff_body (t := t), ← Nat.add_assoc,
    Nat.add_right_comm]

end

theorem sealed_atom (id : UInt32) : (Term.atom 0 id).Sealed := ⟨trivial, trivial, trivial⟩

theorem sealed_ofBit (bit : Bool) : (Term.ofBit bit).Sealed := by
  cases bit <;> decide

theorem Sealed.func {range : UInt32} {func arg : Term} (h : (Term.app 0 range func arg).Sealed) :
    func.Sealed :=
  ⟨h.coherent.2.1, h.indicesSmall.1, h.closed.1⟩

theorem Sealed.arg {range : UInt32} {func arg : Term} (h : (Term.app 0 range func arg).Sealed) :
    arg.Sealed :=
  ⟨h.coherent.2.2, h.indicesSmall.2, h.closed.2⟩

end Term

end WeakHead
