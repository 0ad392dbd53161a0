import WeakHead.Proofs.BinderBounds

/-!
# Laws of instantiation

Closed values that go in lower the range of a term by their number. They can
go in together or one part after the other: what is in already is closed, so
that the values that come later find nothing to replace in it, and they find
the other loose indices lowered by as many as have been used up.
-/

namespace WeakHead

namespace Term

/-! ## Ranges -/

/-- **Closed values lower the range by their number.** -/
theorem looseRange_instantiate {t u : Term} {values : Array Term} (hc : t.Coherent)
    (hi : t.IndicesSmall)
    (hv : ∀ v ∈ values, v.Coherent ∧ v.IndicesSmall ∧ v.looseRange = 0)
    (h : t.instantiate values = .ok u) :
    u.looseRange.toNat = t.looseRange.toNat - values.size ∧
      (u.isClosed = true ↔ t.looseRange.toNat ≤ values.size) := by
  have hrule : Instantiates values 0 t u := instantiates_of_ok h
  have hclosed : ∀ v ∈ values, v.Closed := by
    intro v hmem
    obtain ⟨hcv, hiv, hzero⟩ := hv v hmem
    rw [← isClosed_iff hcv hiv, isClosed, hzero]
    rfl
  have hcu : u.Coherent := hrule.coherent hc fun v hmem => (hv v hmem).1
  have hiu : u.IndicesSmall := hrule.indicesSmall hi fun v hmem => (hv v hmem).2.1
  have hle : ∀ d, u.looseRange.toNat ≤ d ↔ t.looseRange.toNat ≤ d + values.size := by
    intro d
    have hscoped := hrule.scopedUnder_iff hc hi hclosed d
    rwa [Nat.zero_add, ← looseRange_le_iff hcu hiu, ← looseRange_le_iff hc hi] at hscoped
  have heq : u.looseRange.toNat = t.looseRange.toNat - values.size := by
    have hlower := (hle (t.looseRange.toNat - values.size)).mpr (by omega)
    have hupper := (hle u.looseRange.toNat).mp (Nat.le_refl _)
    omega
  refine ⟨heq, ?_⟩
  rw [isClosed, beq_iff_eq, ← UInt32.toNat_inj, heq]
  exact Nat.sub_eq_zero_iff_le

theorem looseRange_instantiate_open :
    let t := ((var 1 5).apply (var 0 0)).apply ((var 0 2).apply (atom 0 7))
    let values := #[var 1 0, atom 0 5]
    t.Coherent ∧ t.IndicesSmall ∧
      (∀ v ∈ values, v.Coherent ∧ v.IndicesSmall ∧ v.looseRange = 0) ∧
      t.looseRange = 5 ∧ ∃ u, t.instantiate values = .ok u ∧ u.looseRange.toNat = 5 - 2 ∧
        u.isClosed ≠ true := by
  -- two values for a term that lets out five indices, one of them below a binder
  intro t values
  have hv : ∀ v ∈ values, v.Coherent ∧ v.IndicesSmall ∧ v.looseRange = 0 := by decide
  obtain ⟨heq, hclosed⟩ := looseRange_instantiate (t := t) (by decide) (by decide) hv rfl
  exact ⟨by decide, by decide, hv, by decide, _, rfl, heq.trans (by decide),
    fun h => absurd (hclosed.mp h) (by decide)⟩

/-! ## Rules -/

section
variable {values vs ws : Array Term} {outer : Nat} {t u w : Term}

theorem instantiates_self (h : t.ScopedUnder outer) (hc : t.Coherent) (hi : t.IndicesSmall) :
    Instantiates values outer t t := by
  cases t with
  | var => exact .kept h
  | atom => exact .atom
  | app => exact .pruned ((range_le_iff hc hi _).mpr h)

theorem Instantiates.eq_of_empty (h : Instantiates #[] outer t u) (hc : t.Coherent) : u = t := by
  induction h with
  | kept => rfl
  | replaced _ hk => simp at hk
  | lowered _ hl => rw [UInt32.toNat_inj.mp hl]
  | atom => rfl
  | pruned => rfl
  | rebuilt _ _ _ ihf iha =>
    rw [ihf hc.2.1, iha hc.2.2, hc.1]
    rfl

theorem Instantiates.append (h : Instantiates vs outer t w) (h' : Instantiates ws outer w u)
    (hc : t.Coherent) (hi : t.IndicesSmall) (hv : ∀ v ∈ vs, v.Sealed) :
    Instantiates (vs ++ ws) outer t u := by
  induction h generalizing u with
  | kept h =>
    rw [h'.eq_of_scopedUnder h hc hi]
    exact .kept h
  | @replaced outer k binders index value w h hk hw =>
    have hsealed := hv value (Array.mem_of_getElem? hk)
    have hscoped : w.ScopedUnder outer :=
      (scopedUnder_addBinders hw outer).mpr (hsealed.closed.mono (Nat.zero_le _))
    have hbound : k < vs.size := (Array.getElem?_eq_some_iff.mp hk).1
    rw [h'.eq_of_scopedUnder hscoped (hsealed.coherent.addBinders hw)
      (hsealed.indicesSmall.addBinders hw)]
    exact .replaced h (by rwa [Array.getElem?_append_left hbound]) hw
  | @lowered outer binders index lower h hl =>
    cases h' with
    | kept h' => omega
    | @replaced _ k _ _ value _ h' hk hu =>
      have hlast : (vs ++ ws)[vs.size + k]? = some value := by
        rw [Array.getElem?_append_right (Nat.le_add_right _ _), Nat.add_sub_cancel_left, hk]
      exact .replaced (by omega) hlast hu
    | lowered h' hl' =>
      rw [Nat.add_assoc] at h
      refine .lowered ?_ ?_
      · rw [Array.size_append]
        omega
      · rw [Array.size_append]
        omega
  | atom =>
    cases h'
    exact .atom
  | pruned h =>
    rw [h'.eq_of_scopedUnder ((range_le_iff hc hi _).mp h) hc hi]
    exact .pruned h
  | @rebuilt outer binders range func arg func' arg' h hf ha ihf iha =>
    have hcf := hf.coherent hc.2.1 fun v hm => (hv v hm).coherent
    have hca := ha.coherent hc.2.2 fun v hm => (hv v hm).coherent
    have hif := hf.indicesSmall hi.1 fun v hm => (hv v hm).indicesSmall
    have hia := ha.indicesSmall hi.2 fun v hm => (hv v hm).indicesSmall
    have hcw : (app binders (max func'.looseRange arg'.looseRange) func' arg').Coherent :=
      ⟨rfl, hcf, hca⟩
    have hw : Instantiates ws outer
        (.app binders (max func'.looseRange arg'.looseRange) func' arg') u := h'
    cases hw with
    | pruned hr =>
      -- all loose indices have been replaced already
      obtain ⟨hsf, hsa⟩ := (range_le_iff hcw ⟨hif, hia⟩ _).mp hr
      exact .rebuilt h (ihf (instantiates_self hsf hcf hif) hc.2.1 hi.1)
        (iha (instantiates_self hsa hca hia) hc.2.2 hi.2)
    | rebuilt _ hf' ha' => exact .rebuilt h (ihf hf' hc.2.1 hi.1) (iha ha' hc.2.2 hi.2)

end

/-! ## One call for two -/

section
variable {values vs ws : Array Term} {t u w : Term}

theorem instantiateUnder_var_of_instantiates {outer binders index depth : UInt32}
    (hd : Word.add .tooDeep outer binders = .ok depth)
    (h : Instantiates values outer.toNat (.var binders index) u) :
    (var binders index).instantiateUnder values outer = .ok u := by
  have hdepth := Word.add_eq_ok_iff.mp hd
  rw [instantiateUnder, hd]
  show (if index < depth then _ else _ : Checked Term) = _
  cases h with
  | kept h =>
    rw [if_pos (UInt32.lt_iff_toNat_lt.mpr (by omega))]
    rfl
  | @replaced _ k _ _ value _ h hk hu =>
    have hle : depth ≤ index := UInt32.le_iff_toNat_le.mpr (by omega)
    have hat : (index - depth).toNat = k := by
      rw [UInt32.toNat_sub_of_le _ _ hle]
      omega
    rw [if_neg (UInt32.not_lt.mpr hle), hat, hk]
    exact hu
  | @lowered _ _ _ lower h hl =>
    have hle : depth ≤ index := UInt32.le_iff_toNat_le.mpr (by omega)
    have hnone : values[(index - depth).toNat]? = none := by
      rw [Array.getElem?_eq_none_iff, UInt32.toNat_sub_of_le _ _ hle]
      omega
    have hlower : index - values.size.toUInt32 = lower := by
      rw [← UInt32.toNat_inj, toNat_sub_toUInt32 (by omega), hl]
    rw [if_neg (UInt32.not_lt.mpr hle), hnone, hlower]
    rfl

theorem instantiateUnder_of_instantiates {outer : UInt32}
    (hw : t.instantiateUnder vs outer = .ok w) (h : Instantiates values outer.toNat t u) :
    t.instantiateUnder values outer = .ok u := by
  induction t generalizing outer u w with
  | var binders index =>
    rw [instantiateUnder, Checked.bind_eq_ok_iff] at hw
    obtain ⟨depth, hd, -⟩ := hw
    exact instantiateUnder_var_of_instantiates hd h
  | atom binders id =>
    rw [instantiateUnder, Checked.bind_eq_ok_iff] at hw
    obtain ⟨depth, hd, -⟩ := hw
    cases h
    rw [instantiateUnder, hd]
    rfl
  | app binders range func arg ihf iha =>
    rw [instantiateUnder, Checked.bind_eq_ok_iff] at hw
    obtain ⟨depth, hd, hw⟩ := hw
    have hdepth := Word.add_eq_ok_iff.mp hd
    rw [instantiateUnder, hd]
    show (if range ≤ depth then _ else _ : Checked Term) = _
    cases h with
    | pruned hr =>
      rw [if_pos (by rwa [UInt32.le_iff_toNat_le, hdepth])]
      rfl
    | rebuilt hr hf ha =>
      have hgt : ¬ range ≤ depth := by
        rw [UInt32.le_iff_toNat_le]
        omega
      rw [if_neg hgt] at hw
      simp only [Checked.bind_eq_ok_iff] at hw
      obtain ⟨func', hfunc, arg', harg, -⟩ := hw
      rw [if_neg hgt, ihf hfunc (hdepth ▸ hf), iha harg (hdepth ▸ ha)]
      rfl

theorem instantiate_append (hc : t.Coherent) (hi : t.IndicesSmall) (hv : ∀ v ∈ vs, v.Sealed)
    (hw : t.instantiate vs = .ok w) (hu : w.instantiate ws = .ok u) :
    t.instantiate (vs ++ ws) = .ok u := by
  have h : Instantiates vs 0 t w := instantiates_of_ok hw
  have h' : Instantiates ws 0 w u := instantiates_of_ok hu
  exact instantiateUnder_of_instantiates hw (h.append h' hc hi hv)

/-- Puts the values in one by one, each for index `0`. -/
def instantiateEach (t : Term) (values : List Term) : Checked Term :=
  values.foldlM (fun t v => t.instantiate #[v]) t

theorem instantiate_of_instantiateEach {vs : List Term} (hne : vs ≠ []) (hc : t.Coherent)
    (hi : t.IndicesSmall) (hv : ∀ v ∈ vs, v.Sealed) (h : t.instantiateEach vs = .ok u) :
    t.instantiate vs.toArray = .ok u := by
  induction vs generalizing t with
  | nil => exact absurd rfl hne
  | cons v vs ih =>
    rw [instantiateEach, List.foldlM_cons, Checked.bind_eq_ok_iff] at h
    obtain ⟨w, hw, h⟩ := h
    rw [List.forall_mem_cons] at hv
    have hfirst : ∀ v' ∈ #[v], v'.Sealed := by simpa using hv.1
    cases vs with
    | nil =>
      cases h
      exact hw
    | cons v' vs =>
      have hrule : Instantiates #[v] 0 t w := instantiates_of_ok hw
      have hcw := hrule.coherent hc fun v hm => (hfirst v hm).coherent
      have hiw := hrule.indicesSmall hi fun v hm => (hfirst v hm).indicesSmall
      have hrest := ih (List.cons_ne_nil _ _) hcw hiw hv.2 h
      have hall := instantiate_append hc hi hfirst hw hrest
      rwa [List.append_toArray] at hall

/-- **Simultaneous is successive.** If closed values go in and other values, closed or not, after
them, then all of them can go in at once, with the same result. In particular closed values can go
in one by one, each for index `0`. -/
theorem instantiate_successively {t : Term} {vs : Array Term} (hc : t.Coherent)
    (hi : t.IndicesSmall) (hv : ∀ v ∈ vs, v.Sealed) :
    (∀ ws w u, t.instantiate vs = .ok w → w.instantiate ws = .ok u →
      t.instantiate (vs ++ ws) = .ok u) ∧
    ∀ u, t.instantiateEach vs.toList = .ok u →
      (0 < vs.size → t.instantiate vs = .ok u) ∧ ∀ w, t.instantiate vs = .ok w → w = u := by
  refine ⟨fun ws w u hw hu => instantiate_append hc hi hv hw hu, fun u h => ?_⟩
  have hlist : ∀ v ∈ vs.toList, v.Sealed := fun v hm => hv v (Array.mem_toList_iff.mp hm)
  have hall : vs.toList ≠ [] → t.instantiate vs = .ok u := fun hne =>
    instantiate_of_instantiateEach hne hc hi hlist h
  constructor
  · intro hpos
    exact hall fun hnil => Nat.ne_of_gt hpos (congrArg List.length hnil)
  · intro w hw
    by_cases hnil : vs.toList = []
    · obtain rfl := Array.toList_eq_nil_iff.mp hnil
      cases h
      exact (instantiates_of_ok hw : Instantiates #[] 0 t w).eq_of_empty hc
    · rw [hall hnil] at hw
      exact (Except.ok.inj hw).symm

end

theorem instantiate_successively_below_binders :
    let t := ((var 2 3).apply ((var 0 3).apply (var 0 5))).withBinders 1
    let vs := #[((var 0 0).apply (var 0 0)).withBinders 1, atom 0 7]
    let ws := #[(var 0 4).apply (var 1 0), atom 0 8, atom 0 9]
    let value := ((var 0 0).apply (var 0 0)).withBinders 3
    let w := (value.apply ((var 0 1).apply (var 0 3))).withBinders 1
    let u := (value.apply (((var 0 4).apply (var 1 0)).apply (atom 0 9))).withBinders 1
    t.Coherent ∧ t.IndicesSmall ∧ (∀ v ∈ vs, v.Sealed) ∧
      t.instantiate vs = .ok w ∧ w.instantiate ws = .ok u ∧ t.instantiate (vs ++ ws) = .ok u ∧
      t.instantiateEach vs.toList = .ok w := by
  -- an open value goes in after a closed one that has been put below three binders
  intro t vs ws value w u
  have hc : t.Coherent := by decide
  have hi : t.IndicesSmall := by decide
  have hv : ∀ v ∈ vs, v.Sealed := by decide
  have heach : t.instantiateEach vs.toList = .ok w := by decide
  have hthen : w.instantiate ws = .ok u := by decide
  obtain ⟨htwo, hone⟩ := instantiate_successively hc hi hv
  have hfirst : t.instantiate vs = .ok w := (hone w heach).1 (by decide)
  exact ⟨hc, hi, hv, hfirst, hthen, htwo ws w u hfirst hthen, heach⟩

end Term

end WeakHead
