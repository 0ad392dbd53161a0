import WeakHead.Proofs.SealedRun

/-!
# How deep instantiation goes

A beta step can double the binders around a place. But it never goes into a
value that an earlier step has put in: the value is closed, and its range says
so. The places that it visits are those of the program, so they are below at
most as many binders as a place of the program is. A value that is put in gets
the binders of one variable of the program, so its own binders grow by at most
as many with each step.
-/

namespace WeakHead

namespace Term

def depth : Term → Nat
  | .var binders _ => binders.toNat
  | .atom binders _ => binders.toNat
  | .app binders _ func arg => binders.toNat + max func.depth arg.depth

/-- A term stands below `d` binders of the program. With them, each place in it is below at most `p`
binders, but for the closed values that have been put in, which have at most `q` binders each. -/
inductive Fits (p q : Nat) : Nat → Term → Prop
  | var {d : Nat} {binders index : UInt32} (h : d + binders.toNat ≤ p) :
    Fits p q d (.var binders index)
  | atom {d : Nat} {binders id : UInt32} (h : d + binders.toNat ≤ p) :
    Fits p q d (.atom binders id)
  | app {d : Nat} {binders range : UInt32} {func arg : Term} (h : d + binders.toNat ≤ p)
    (hf : Fits p q (d + binders.toNat) func) (ha : Fits p q (d + binders.toNat) arg) :
    Fits p q d (.app binders range func arg)
  | value {d : Nat} {t : Term} (hclosed : t.Closed) (hb : t.binders.toNat ≤ q)
    (h : Fits p q 0 t.body) : Fits p q d t

section
variable {p q d : Nat} {t u func arg : Term}

theorem fits_of_depth (h : d + t.depth ≤ p) : Fits p q d t := by
  induction t generalizing d with
  | var => exact .var h
  | atom => exact .atom h
  | app binders range func arg ihf iha =>
    rw [depth] at h
    refine .app (by omega) (ihf ?_) (iha ?_)
    · omega
    · omega

theorem Fits.mono (h : Fits p q d t) {q' : Nat} (hq : q ≤ q') : Fits p q' d t := by
  induction h with
  | var h => exact .var h
  | atom h => exact .atom h
  | app h _ _ ihf iha => exact .app h ihf iha
  | value hclosed hb _ ih => exact .value hclosed (Nat.le_trans hb hq) ih

theorem Fits.lower (h : Fits p q d t) {c : Nat} (hc : c ≤ d) : Fits p q c t := by
  induction h generalizing c with
  | var h => exact .var (by omega)
  | atom h => exact .atom (by omega)
  | app h _ _ ihf iha => exact .app (by omega) (ihf (by omega)) (iha (by omega))
  | value hclosed hb h _ => exact .value hclosed hb h

theorem Fits.binders_le (h : Fits p q d t) (hpq : p ≤ q) : t.binders.toNat ≤ q := by
  cases h with
  | var h => rw [binders]; omega
  | atom h => rw [binders]; omega
  | app h => rw [binders]; omega
  | value _ hb => exact hb

theorem Fits.body (h : Fits p q d t) : Fits p q 0 t.body := by
  cases h with
  | var h => exact .var (Nat.zero_le p)
  | atom h => exact .atom (Nat.zero_le p)
  | app h hf ha => exact .app (Nat.zero_le p) (hf.lower (Nat.zero_le _)) (ha.lower (Nat.zero_le _))
  | value _ _ h => exact h

theorem Fits.children {binders range : UInt32} (h : Fits p q d (.app binders range func arg)) :
    Fits p q 0 func ∧ Fits p q 0 arg := by
  generalize ht : Term.app binders range func arg = t at h
  induction h generalizing binders with
  | var => cases ht
  | atom => cases ht
  | app _ hf ha =>
    cases ht
    exact ⟨hf.lower (Nat.zero_le _), ha.lower (Nat.zero_le _)⟩
  | value _ _ _ ih =>
    rw [← ht] at ih
    exact ih rfl

theorem fits_ofBit (bit : Bool) (hq : 2 ≤ q) : Fits p q 0 (ofBit bit) :=
  .value (sealed_ofBit bit).closed hq (.var (Nat.zero_le p))

/-! ## Instantiation -/

variable {values : Array Term}

theorem Instantiates.eq_of_scopedUnder {outer : Nat} (h : Instantiates values outer t u)
    (ht : t.ScopedUnder outer) (hc : t.Coherent) (hi : t.IndicesSmall) : u = t := by
  cases h with
  | kept => rfl
  | replaced h =>
    have hlt := ht
    rw [ScopedUnder] at hlt
    omega
  | lowered h =>
    have hlt := ht
    rw [ScopedUnder] at hlt
    omega
  | atom => rfl
  | pruned => rfl
  | rebuilt h =>
    have hle := (range_le_iff hc hi _).mpr ht
    omega

theorem Instantiates.fits (h : Fits p q d t) (ht : Instantiates values d t u) (hc : t.Coherent)
    (hi : t.IndicesSmall) (hv : ∀ v ∈ values, v.Closed ∧ Fits p q 0 v) (hpq : p ≤ q) :
    Fits p (q + p) d u := by
  induction h generalizing u with
  | var h =>
    cases ht with
    | kept => exact .var h
    | @replaced _ _ _ _ value _ _ hk hu =>
      obtain ⟨hclosed, hfits⟩ := hv value (Array.mem_of_getElem? hk)
      have hbinders := hfits.binders_le hpq
      obtain ⟨hadd, hwith⟩ := addBinders_eq_ok_iff.mp hu
      refine .value ((scopedUnder_addBinders hu 0).mpr (hclosed.mono (Nat.zero_le _))) ?_ ?_
      · omega
      · rw [hwith]
        have hbody := hfits.body.mono (Nat.le_add_right q p)
        rwa [Term.body, withBinders_withBinders]
    | lowered => exact .var h
  | atom h =>
    cases ht
    exact .atom h
  | app h hf ha ihf iha =>
    cases ht with
    | pruned => exact (Fits.app h hf ha).mono (Nat.le_add_right q p)
    | rebuilt _ hf' ha' =>
      exact .app h (ihf hf' hc.2.1 hi.1) (iha ha' hc.2.2 hi.2)
  | value hclosed hb h _ =>
    rw [ht.eq_of_scopedUnder (hclosed.mono (Nat.zero_le _)) hc hi]
    exact (Fits.value hclosed hb h).mono (Nat.le_add_right q p)

theorem exists_depth (outer binders : UInt32) (h : outer.toNat + binders.toNat < UInt32.size) :
    ∃ depth : UInt32, Word.add .tooDeep outer binders = .ok depth ∧
      depth.toNat = outer.toNat + binders.toNat := by
  have hadd : Word.add .tooDeep outer binders = .ok (outer + binders) := by
    rw [Word.add, if_pos h]
  exact ⟨_, hadd, Word.add_eq_ok_iff.mp hadd⟩

theorem exists_instantiateUnder_var {outer binders index : UInt32}
    (h : outer.toNat + binders.toNat < UInt32.size)
    (hv : ∀ v ∈ values, v.binders.toNat + binders.toNat < UInt32.size) :
    ∃ u, (var binders index).instantiateUnder values outer = .ok u := by
  obtain ⟨depth, hadd, -⟩ := exists_depth outer binders h
  rw [instantiateUnder, hadd]
  show ∃ u, (if index < depth then _ else _ : Checked Term) = .ok u
  by_cases hlt : index < depth
  · rw [if_pos hlt]
    exact ⟨_, rfl⟩
  rw [if_neg hlt]
  cases hk : values[(index - depth).toNat]? with
  | some value => exact exists_addBinders (hv value (Array.mem_of_getElem? hk))
  | none => exact ⟨_, rfl⟩

theorem instantiateUnder_of_range_le {outer binders range : UInt32}
    (h : outer.toNat + binders.toNat < UInt32.size)
    (hr : range.toNat ≤ outer.toNat + binders.toNat) :
    (app binders range func arg).instantiateUnder values outer =
      .ok (.app binders range func arg) := by
  obtain ⟨depth, hadd, hdepth⟩ := exists_depth outer binders h
  rw [instantiateUnder, hadd]
  show (if range ≤ depth then _ else _ : Checked Term) = _
  rw [if_pos (by rwa [UInt32.le_iff_toNat_le, hdepth])]
  rfl

theorem instantiateUnder_of_scopedUnder {outer : UInt32}
    (h : outer.toNat + t.binders.toNat < UInt32.size) (ht : t.ScopedUnder outer.toNat)
    (hc : t.Coherent) (hi : t.IndicesSmall) : t.instantiateUnder values outer = .ok t := by
  cases t with
  | var binders index =>
    obtain ⟨depth, hadd, hdepth⟩ := exists_depth outer binders h
    have hlt : index < depth := by
      rw [UInt32.lt_iff_toNat_lt, hdepth]
      exact ht
    rw [instantiateUnder, hadd]
    show (if index < depth then _ else _ : Checked Term) = _
    rw [if_pos hlt]
    rfl
  | atom binders id =>
    obtain ⟨depth, hadd, -⟩ := exists_depth outer binders h
    rw [instantiateUnder, hadd]
    rfl
  | app binders range func arg =>
    exact instantiateUnder_of_range_le h ((range_le_iff hc hi _).mpr ht)

theorem exists_instantiateUnder (h : Fits p q d t) {outer : UInt32} (hd : outer.toNat = d)
    (hdp : d ≤ p) (hc : t.Coherent) (hi : t.IndicesSmall)
    (hv : ∀ v ∈ values, v.binders.toNat ≤ q) (hpq : p + q < UInt32.size) :
    ∃ u, t.instantiateUnder values outer = .ok u := by
  induction h generalizing outer with
  | var h =>
    refine exists_instantiateUnder_var (by omega) ?_
    intro v hmem
    have hbinders := hv v hmem
    omega
  | @atom _ binders _ h =>
    obtain ⟨depth, hadd, -⟩ := exists_depth outer binders (by omega)
    exact ⟨_, by rw [instantiateUnder, hadd]; rfl⟩
  | @app _ binders range func arg h hf ha ihf iha =>
    by_cases hr : range.toNat ≤ outer.toNat + binders.toNat
    · exact ⟨_, instantiateUnder_of_range_le (by omega) hr⟩
    obtain ⟨depth, hadd, hdepth⟩ := exists_depth outer binders (by omega)
    have hgt : ¬ range ≤ depth := by rwa [UInt32.le_iff_toNat_le, hdepth]
    rw [hd] at hdepth
    obtain ⟨func', hfunc⟩ := ihf hdepth h hc.2.1 hi.1
    obtain ⟨arg', harg⟩ := iha hdepth h hc.2.2 hi.2
    refine ⟨(func'.apply arg').withBinders binders, ?_⟩
    rw [instantiateUnder, hadd]
    show (if range ≤ depth then _ else _ : Checked Term) = _
    rw [if_neg hgt, hfunc, harg]
    rfl
  | value hclosed hb _ _ =>
    have hscoped := hclosed.mono (Nat.zero_le outer.toNat)
    exact ⟨_, instantiateUnder_of_scopedUnder (by omega) hscoped hc hi⟩

end

end Term

/-! ## Machines -/

/-- The bound for values after `k` beta steps on a program of depth `p`. A bit that is read has two
binders. -/
def valueBound (p k : Nat) : Nat := 2 + (k + 1) * p

theorem valueBound_succ (p k : Nat) : valueBound p (k + 1) = valueBound p k + p := by
  unfold valueBound
  rw [Nat.succ_mul]
  omega

theorem le_valueBound (p k : Nat) : p ≤ valueBound p k := by
  unfold valueBound
  rw [Nat.succ_mul]
  omega

theorem handedOn_fits (p : Nat) :
    HandedOn fun k t => t.Sealed ∧ t.Fits p (valueBound p k) 0 where
  atom _ id := ⟨Term.sealed_atom id, .atom (Nat.zero_le p)⟩
  ofBit k bit := by
    refine ⟨Term.sealed_ofBit bit, Term.fits_ofBit bit ?_⟩
    unfold valueBound
    omega
  func h := ⟨h.1.func, h.2.children.1⟩
  arg h := ⟨h.1.arg, h.2.children.2⟩
  later {k t} h := by
    rw [valueBound_succ]
    exact ⟨h.1, h.2.mono (Nat.le_add_right _ _)⟩
  instantiate {k t u values} ht hv hsize h := by
    have hsealed := handedOn_sealed.instantiate (k := k) ht.1 (fun v hm => (hv v hm).1) hsize h
    rw [valueBound_succ]
    refine ⟨hsealed, (Term.instantiates_of_ok h).fits ht.2.body ?_ ?_ ?_ (le_valueBound p k)⟩
    · exact Term.coherent_withBinders.mpr ht.1.coherent
    · exact Term.indicesSmall_withBinders.mpr ht.1.indicesSmall
    · intro v hm
      exact ⟨(hv v hm).1.closed, (hv v hm).2⟩

namespace Machine

section
variable {m : Machine} {p : Nat}

theorem exists_instantiate_of_carries
    (h : m.Carries fun k t => t.Sealed ∧ t.Fits p (valueBound p k) 0)
    (hsize : p + valueBound p m.tally.betas < UInt32.size) {ts : List Term}
    (hts : m.spine.Holds ts) :
    ∃ focus, m.focus.body.instantiate ((m.filled ts m.focus.binders.toNat).drop
      (ts.length - m.focus.binders.toNat)).toArray = .ok focus := by
  obtain ⟨⟨hsealed, hfits⟩, us, hus, hall⟩ := h
  have hsame : us = ts := by rw [← hus.toList_eq, hts.toList_eq]
  rw [hsame] at hall
  refine Term.exists_instantiateUnder hfits.body rfl (Nat.zero_le p) ?_ ?_ ?_ hsize
  · exact Term.coherent_withBinders.mpr hsealed.coherent
  · exact Term.indicesSmall_withBinders.mpr hsealed.indicesSmall
  · intro v hv
    have hmem := List.mem_of_mem_drop (List.mem_toArray.mp hv)
    exact ((handedOn_fits p).mem_filled hall v hmem).2.binders_le (le_valueBound p _)

end

end Machine

end WeakHead
