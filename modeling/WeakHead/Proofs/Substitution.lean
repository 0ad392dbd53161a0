import WeakHead.Proofs.Lambda
import WeakHead.Term

/-!
# Instantiation is substitution

Instantiation inserts values unshifted, below binders that are counted and
not walked, and returns an application unvisited if its range says that
nothing in it is replaced. For closed values that is the textbook
substitution on the unfused terms.
-/

namespace WeakHead

namespace Term

/-- How instantiation treats a term below `outer` binders, rule by rule. -/
inductive Instantiates (values : Array Term) : Nat → Term → Term → Prop
  | kept {outer : Nat} {binders index : UInt32} (h : index.toNat < outer + binders.toNat) :
    Instantiates values outer (.var binders index) (.var binders index)
  | replaced {outer k : Nat} {binders index : UInt32} {value u : Term}
    (h : index.toNat = outer + binders.toNat + k) (hk : values[k]? = some value)
    (hu : value.addBinders binders = .ok u) : Instantiates values outer (.var binders index) u
  | lowered {outer : Nat} {binders index lower : UInt32}
    (h : outer + binders.toNat + values.size ≤ index.toNat)
    (hl : lower.toNat = index.toNat - values.size) :
    Instantiates values outer (.var binders index) (.var binders lower)
  | atom {outer : Nat} {binders id : UInt32} :
    Instantiates values outer (.atom binders id) (.atom binders id)
  | pruned {outer : Nat} {binders range : UInt32} {func arg : Term}
    (h : range.toNat ≤ outer + binders.toNat) :
    Instantiates values outer (.app binders range func arg) (.app binders range func arg)
  | rebuilt {outer : Nat} {binders range : UInt32} {func arg func' arg' : Term}
    (h : outer + binders.toNat < range.toNat)
    (hf : Instantiates values (outer + binders.toNat) func func')
    (ha : Instantiates values (outer + binders.toNat) arg arg') :
    Instantiates values outer (.app binders range func arg)
      ((func'.apply arg').withBinders binders)

theorem toNat_sub_toUInt32 {index : UInt32} {n : Nat} (h : n ≤ index.toNat) :
    (index - n.toUInt32).toNat = index.toNat - n := by
  have hn : n.toUInt32.toNat = n :=
    UInt32.toNat_ofNat_of_lt' (Nat.lt_of_le_of_lt h index.toNat_lt)
  rw [UInt32.toNat_sub_of_le _ _ (UInt32.le_iff_toNat_le.mpr (by rwa [hn])), hn]

section
variable {values : Array Term} {outer binders index : UInt32} {u : Term}

theorem instantiates_of_var (h : (Term.var binders index).instantiateUnder values outer = .ok u) :
    Instantiates values outer.toNat (.var binders index) u := by
  rw [instantiateUnder, Checked.bind_eq_ok_iff] at h
  obtain ⟨depth, hd, h⟩ := h
  rw [Word.add_eq_ok_iff] at hd
  split at h
  · rename_i hlt
    rw [UInt32.lt_iff_toNat_lt, hd] at hlt
    cases h
    exact .kept hlt
  rename_i hge
  rw [UInt32.lt_iff_toNat_lt, hd, Nat.not_lt] at hge
  have hsub : (index - depth).toNat = index.toNat - (outer.toNat + binders.toNat) := by
    rw [UInt32.toNat_sub_of_le _ _ (UInt32.le_iff_toNat_le.mpr (by rwa [hd])), hd]
  rw [hsub] at h
  split at h
  · rename_i value hk
    exact .replaced (by omega) hk h
  · rename_i hk
    have hlarge : outer.toNat + binders.toNat + values.size ≤ index.toNat := by
      rw [Array.getElem?_eq_none_iff] at hk
      omega
    cases h
    exact .lowered hlarge (toNat_sub_toUInt32 (by omega))

theorem instantiates_of_ok {t : Term} (h : t.instantiateUnder values outer = .ok u) :
    Instantiates values outer.toNat t u := by
  induction t generalizing outer u with
  | var => exact instantiates_of_var h
  | atom binders id =>
    rw [instantiateUnder, Checked.bind_eq_ok_iff] at h
    obtain ⟨_, _, h⟩ := h
    cases h
    exact .atom
  | app binders range func arg ihf iha =>
    rw [instantiateUnder, Checked.bind_eq_ok_iff] at h
    obtain ⟨depth, hd, h⟩ := h
    rw [Word.add_eq_ok_iff] at hd
    split at h
    · rename_i hle
      rw [UInt32.le_iff_toNat_le, hd] at hle
      cases h
      exact .pruned hle
    · rename_i hlt
      rw [UInt32.le_iff_toNat_le, hd, Nat.not_le] at hlt
      simp only [Checked.bind_eq_ok_iff] at h
      obtain ⟨func', hf, arg', ha, h⟩ := h
      cases h
      exact .rebuilt hlt (hd ▸ ihf hf) (hd ▸ iha ha)

end

/-! ## What instantiation keeps -/

section
variable {values : Array Term} {outer : Nat} {t u : Term}

theorem Instantiates.coherent (h : Instantiates values outer t u) (ht : t.Coherent)
    (hv : ∀ v ∈ values, v.Coherent) : u.Coherent := by
  induction h with
  | kept => exact ht
  | replaced _ hk hu => exact (hv _ (Array.mem_of_getElem? hk)).addBinders hu
  | lowered => trivial
  | atom => trivial
  | pruned => exact ht
  | rebuilt _ _ _ ihf iha =>
    rw [coherent_withBinders, coherent_apply]
    exact ⟨ihf ht.2.1, iha ht.2.2⟩

theorem Instantiates.indicesSmall (h : Instantiates values outer t u) (ht : t.IndicesSmall)
    (hv : ∀ v ∈ values, v.IndicesSmall) : u.IndicesSmall := by
  induction h with
  | kept => exact ht
  | replaced _ hk hu => exact (hv _ (Array.mem_of_getElem? hk)).addBinders hu
  | @lowered _ _ index lower _ hl =>
    have hi : index.toNat ≤ UInt32.size - 2 := ht
    show lower.toNat ≤ UInt32.size - 2
    omega
  | atom => trivial
  | pruned => exact ht
  | rebuilt _ _ _ ihf iha =>
    rw [indicesSmall_withBinders, indicesSmall_apply]
    exact ⟨ihf ht.1, iha ht.2⟩

theorem Instantiates.scopedUnder_iff (h : Instantiates values outer t u) (hc : t.Coherent)
    (hi : t.IndicesSmall) (hv : ∀ v ∈ values, v.Closed) (d : Nat) :
    u.ScopedUnder (outer + d) ↔ t.ScopedUnder (outer + d + values.size) := by
  induction h with
  | @kept outer binders index h =>
    have hindex : index.toNat < outer + d + binders.toNat := by omega
    exact iff_of_true hindex (ScopedUnder.mono hindex (Nat.le_add_right _ _))
  | @replaced outer k binders index value u h hk hu =>
    have hbound : k < values.size := (Array.getElem?_eq_some_iff.mp hk).1
    have hclosed := hv value (Array.mem_of_getElem? hk)
    refine iff_of_true ((scopedUnder_addBinders hu _).mpr (hclosed.mono (Nat.zero_le _))) ?_
    show index.toNat < outer + d + values.size + binders.toNat
    omega
  | @lowered outer binders index lower h hl =>
    show lower.toNat < outer + d + binders.toNat ↔
      index.toNat < outer + d + values.size + binders.toNat
    omega
  | atom => exact Iff.rfl
  | @pruned outer binders range func arg h =>
    have hscoped : (app binders range func arg).ScopedUnder outer := (range_le_iff hc hi _).mp h
    exact iff_of_true (hscoped.mono (by omega)) (hscoped.mono (by omega))
  | @rebuilt outer binders _ _ _ _ _ _ _ _ ihf iha =>
    have hf := ihf hc.2.1 hi.1
    have ha := iha hc.2.2 hi.2
    rw [scopedUnder_withBinders]
    rw [ScopedUnder, Nat.add_right_comm _ values.size, Nat.add_right_comm _ d]
    exact and_congr hf ha

theorem Instantiates.scopedUnder (h : Instantiates values outer t u)
    (ht : t.ScopedUnder (outer + values.size)) (hv : ∀ v ∈ values, v.Closed) (hc : t.Coherent)
    (hi : t.IndicesSmall) : u.ScopedUnder outer :=
  (h.scopedUnder_iff hc hi hv 0).mpr ht

/-! ## The textbook substitution -/

theorem Instantiates.unfuse_eq (h : Instantiates values outer t u) (hc : t.Coherent)
    (hi : t.IndicesSmall) (hv : ∀ v ∈ values, v.Closed) :
    u.unfuse = t.unfuse.subst (values.toList.map unfuse) outer := by
  have hclosed : ∀ v ∈ values.toList.map unfuse, v.ScopedUnder 0 := by
    intro v hmem
    obtain ⟨w, hw, rfl⟩ := List.mem_map.mp hmem
    exact (scopedUnder_unfuse 0).mpr (hv w (Array.mem_toList_iff.mp hw))
  induction h with
  | kept h =>
    rw [unfuse, Lambda.subst_lams, Lambda.subst_of_scopedUnder (Lambda.scopedUnder_var.mpr h)]
  | @replaced outer k binders index value u h hk hu =>
    have hget : (values.toList.map unfuse)[k]? = some value.unfuse := by
      rw [List.getElem?_map, Array.getElem?_toList, hk]
      rfl
    rw [unfuse_addBinders hu, unfuse, Lambda.subst_lams, h, Lambda.subst_var_of_closed hclosed hget]
  | @lowered outer binders index lower h hl =>
    have hge : ¬ index.toNat < outer + binders.toNat := by omega
    have hnone : (values.toList.map unfuse)[index.toNat - (outer + binders.toNat)]? = none := by
      rw [List.getElem?_eq_none_iff, List.length_map, Array.length_toList]
      omega
    rw [unfuse, unfuse, Lambda.subst_lams, Lambda.subst, if_neg hge, hnone, hl, List.length_map,
      Array.length_toList]
  | atom => rw [unfuse, Lambda.subst_lams, Lambda.subst]
  | pruned h =>
    -- the range is right, so the textbook finds nothing to replace either
    have hscoped := (range_le_iff hc hi _).mp h
    rw [unfuse, Lambda.subst_lams, Lambda.subst,
      Lambda.subst_of_scopedUnder ((scopedUnder_unfuse _).mpr hscoped.1),
      Lambda.subst_of_scopedUnder ((scopedUnder_unfuse _).mpr hscoped.2)]
  | rebuilt _ _ _ ihf iha =>
    rw [unfuse_withBinders, unfuse, Lambda.subst_lams, Lambda.subst, ← ihf hc.2.1 hi.1,
      ← iha hc.2.2 hi.2]
    rfl

theorem sealed_instantiate (hc : t.Coherent) (hi : t.IndicesSmall)
    (ht : t.ScopedUnder values.size) (hv : ∀ v ∈ values, v.Sealed)
    (h : t.instantiate values = .ok u) : u.Sealed := by
  have hrule : Instantiates values 0 t u := instantiates_of_ok h
  exact ⟨hrule.coherent hc fun v hm => (hv v hm).coherent,
    hrule.indicesSmall hi fun v hm => (hv v hm).indicesSmall,
    hrule.scopedUnder (by rwa [Nat.zero_add]) (fun v hm => (hv v hm).closed) hc hi⟩

/-- **Capture-avoiding substitution.** Whenever instantiation with closed values succeeds, it is the
simultaneous substitution on the unfused terms. -/
theorem unfuse_instantiate (hc : t.Coherent) (hi : t.IndicesSmall) (hv : ∀ v ∈ values, v.Closed)
    (h : t.instantiate values = .ok u) :
    u.unfuse = t.unfuse.subst (values.toList.map unfuse) 0 :=
  (instantiates_of_ok h : Instantiates values 0 t u).unfuse_eq hc hi hv

end

theorem unfuse_instantiate_below_binder :
    let t := (((var 0 1).apply (var 0 2)).apply ((var 0 3).apply (var 0 0))).withBinders 1
    let values := #[((var 0 0).apply (var 0 0)).withBinders 1, atom 0 5]
    t.Coherent ∧ t.IndicesSmall ∧ (∀ v ∈ values, v.Closed) ∧ ∃ u, t.instantiate values = .ok u ∧
      u.unfuse = t.unfuse.subst (values.toList.map unfuse) 0 ∧
      u.unfuse = .lam (.app (.app (.lam (.app (.var 0) (.var 0))) (.atom 5))
        (.app (.var 1) (.var 0))) :=
  ⟨by decide, by decide, by decide, _, rfl,
    unfuse_instantiate (by decide) (by decide) (by decide) rfl, rfl⟩

end Term

end WeakHead
