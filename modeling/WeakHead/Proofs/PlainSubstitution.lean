import WeakHead.Proofs.BinderBounds
import WeakHead.Proofs.StackWalk
import WeakHead.Proofs.Built

/-!
# Substitution without shortcuts

The plain substitution goes through the whole term, in natural numbers, and
looks at no range. Instantiation leaves out the applications that their
ranges say are not affected, and it is the same for all values, also for open
ones, which go in as they are.
-/

namespace WeakHead

inductive Fused where
  | var (binders index : Nat)
  | atom (binders : Nat) (id : UInt32)
  | app (binders : Nat) (func arg : Fused)
  deriving DecidableEq, Repr

namespace Fused

def addBinders (n : Nat) : Fused → Fused
  | .var binders index => .var (binders + n) index
  | .atom binders id => .atom (binders + n) id
  | .app binders func arg => .app (binders + n) func arg

/-- Below `outer` binders, puts `values[k]` for index `k` and lowers every larger index by their
number. A value gets the binders of the variable and is not shifted. -/
def subst (values : List Fused) : Nat → Fused → Fused
  | outer, .var binders index =>
    if index < outer + binders then .var binders index
    else match values[index - (outer + binders)]? with
      | some value => value.addBinders binders
      | none => .var binders (index - values.length)
  | _, .atom binders id => .atom binders id
  | outer, .app binders func arg =>
    .app binders (func.subst values (outer + binders)) (arg.subst values (outer + binders))

def unfuse : Fused → Lambda
  | .var binders index => .lams binders (.var index)
  | .atom binders id => .lams binders (.atom id)
  | .app binders func arg => .lams binders (.app func.unfuse arg.unfuse)

end Fused

namespace Term

def fused : Term → Fused
  | .var binders index => .var binders.toNat index.toNat
  | .atom binders id => .atom binders.toNat id
  | .app binders _ func arg => .app binders.toNat func.fused arg.fused

section
variable {n : UInt32} {t u func arg : Term}

theorem unfuse_fused (t : Term) : t.fused.unfuse = t.unfuse := by
  induction t with
  | var => rfl
  | atom => rfl
  | app _ _ _ _ ihf iha => rw [fused, Fused.unfuse, ihf, iha, unfuse]

theorem eq_of_fused_eq (ht : t.Coherent) (hu : u.Coherent) (h : t.fused = u.fused) : t = u :=
  eq_of_unfuse_eq ht hu (by rw [← unfuse_fused, h, unfuse_fused])

theorem fused_addBinders (h : t.addBinders n = .ok u) : u.fused = t.fused.addBinders n.toNat := by
  obtain ⟨hn, hu⟩ := addBinders_eq_ok_iff.mp h
  rw [hu]
  cases t with
  | var => exact congrArg (Fused.var · _) hn
  | atom => exact congrArg (Fused.atom · _) hn
  | app => exact congrArg (Fused.app · _ _) hn

theorem fused_rebuilt (n : UInt32) (func arg : Term) :
    ((func.apply arg).withBinders n).fused = .app n.toNat func.fused arg.fused := rfl

theorem subst_of_scopedUnder {d : Nat} (h : t.ScopedUnder d) (values : List Fused) :
    t.fused.subst values d = t.fused := by
  induction t generalizing d with
  | var binders index =>
    have hlt : index.toNat < d + binders.toNat := h
    rw [fused, Fused.subst, if_pos hlt]
  | atom => rfl
  | app _ _ _ _ ihf iha => rw [fused, Fused.subst, ihf h.1, iha h.2]

theorem Instantiates.fused_eq {values : Array Term} {outer : Nat}
    (h : Instantiates values outer t u) (hc : t.Coherent) (hi : t.IndicesSmall) :
    u.fused = t.fused.subst (values.toList.map fused) outer := by
  induction h with
  | kept h => rw [fused, Fused.subst, if_pos h]
  | @replaced outer k binders index value u h hk hu =>
    have hge : ¬ index.toNat < outer + binders.toNat := by omega
    have hat : index.toNat - (outer + binders.toNat) = k := by omega
    have hget : (values.toList.map fused)[k]? = some value.fused := by
      rw [List.getElem?_map, Array.getElem?_toList, hk]
      rfl
    rw [fused_addBinders hu, fused, Fused.subst, if_neg hge, hat, hget]
  | @lowered outer binders index lower h hl =>
    have hge : ¬ index.toNat < outer + binders.toNat := by omega
    have hnone : (values.toList.map fused)[index.toNat - (outer + binders.toNat)]? = none := by
      rw [List.getElem?_eq_none_iff, List.length_map, Array.length_toList]
      omega
    rw [fused, fused, Fused.subst, if_neg hge, hnone, hl, List.length_map, Array.length_toList]
  | atom => rfl
  | pruned h =>
    -- the range is right, so the plain substitution finds nothing to replace either
    have hscoped := (range_le_iff hc hi _).mp h
    rw [fused, Fused.subst, subst_of_scopedUnder hscoped.1, subst_of_scopedUnder hscoped.2]
  | rebuilt _ _ _ ihf iha =>
    rw [fused_rebuilt, fused, Fused.subst, ihf hc.2.1 hi.1, iha hc.2.2 hi.2]

/-! ## Room for binders -/

/-- How many binders there are on each way to a variable or an atom. -/
def pathSums : Term → List Nat
  | .var binders _ => [binders.toNat]
  | .atom binders _ => [binders.toNat]
  | .app binders _ func arg => (func.pathSums ++ arg.pathSums).map (binders.toNat + ·)

theorem depth_mem_pathSums (t : Term) : t.depth ∈ t.pathSums := by
  induction t with
  | var => exact List.mem_cons_self
  | atom => exact List.mem_cons_self
  | app binders range func arg ihf iha =>
    rw [pathSums, depth, List.mem_map]
    refine ⟨max func.depth arg.depth, List.mem_append.mpr ?_, rfl⟩
    rcases Nat.le_total func.depth arg.depth with hle | hle
    · rw [Nat.max_eq_right hle]
      exact .inr iha
    · rw [Nat.max_eq_left hle]
      exact .inl ihf

def mostBinders (values : Array Term) : Nat :=
  (values.toList.map fun v => v.binders.toNat).max?.getD 0

theorem binders_le_mostBinders {values : Array Term} {v : Term} (hv : v ∈ values) :
    v.binders.toNat ≤ mostBinders values :=
  max?_getD_le_iff.mp (Nat.le_refl _) _ (List.mem_map_of_mem (Array.mem_toList_iff.mpr hv))

theorem exists_instantiate {values : Array Term} (hc : t.Coherent) (hi : t.IndicesSmall)
    (hroom : ∀ s ∈ t.pathSums, s + mostBinders values ≤ UInt32.size - 1) :
    ∃ u, t.instantiate values = .ok u := by
  have hdepth : t.depth + mostBinders values ≤ UInt32.size - 1 := hroom _ t.depth_mem_pathSums
  have hsize : 0 < UInt32.size := by decide
  exact exists_instantiateUnder (fits_of_depth (Nat.le_of_eq (Nat.zero_add _))) rfl
    (Nat.zero_le _) hc hi (fun v hv => binders_le_mostBinders hv) (by omega)

end

end Term

/-- **Instantiation is the plain substitution.** Where the loop over two stacks has a result, it is
what the plain substitution gives, with the right ranges, whether or not the values are closed. It
has one if there are words for the binders on each way through the term, with those of any one
value. -/
theorem Built.instantiate_plain {t : Term} {values : Array Term} (ht : Built t)
    (hv : ∀ v ∈ values, Built v) (hi : t.IndicesSmall) (hsize : values.size < UInt32.size) :
    let plain := t.fused.subst (values.toList.map Term.fused) 0
    (∀ u, Slotwise.instantiate values t = some u ↔ t.instantiate values = .ok u) ∧
    (∀ u, t.instantiate values = .ok u →
      u.fused = plain ∧ Built u ∧ ∀ w, Built w → w.fused = plain → w = u) ∧
    ((∀ s ∈ t.pathSums, s + Term.mostBinders values ≤ UInt32.size - 1) →
      ∃ u, Slotwise.instantiate values t = some u) := by
  intro plain
  refine ⟨fun u => ?_, fun u hu => ?_, fun hroom => ?_⟩
  · rw [Slotwise.instantiate_eq_toOption hsize]
    cases t.instantiate values <;> simp [Except.toOption]
  · have hrule : Term.Instantiates values 0 t u := Term.instantiates_of_ok hu
    have hfused : u.fused = plain := hrule.fused_eq ht.coherent hi
    have hbuilt : Built u := .instantiate ht hv hu
    refine ⟨hfused, hbuilt, fun w hw hwplain => ?_⟩
    exact Term.eq_of_fused_eq hw.coherent hbuilt.coherent (hwplain.trans hfused.symm)
  · obtain ⟨u, hu⟩ := Term.exists_instantiate ht.coherent hi hroom
    exact ⟨u, Slotwise.instantiate_eq_some hsize hu⟩

theorem Built.instantiate_plain_open :
    let value := ((Term.var 0 4).apply (.var 0 0)).withBinders 1
    let t := ((Term.var 1 2).apply
      (((Term.var 0 0).apply (.atom 0 7)).apply (.var 0 4))).withBinders 1
    let values := #[value, .atom 0 5]
    Built t ∧ (∀ v ∈ values, Built v) ∧ t.IndicesSmall ∧ values.size < UInt32.size ∧
      (∀ s ∈ t.pathSums, s + Term.mostBinders values ≤ UInt32.size - 1) ∧ ¬ value.Closed ∧
      ∃ u, Slotwise.instantiate values t = some u ∧ u.fused =
        .app 1 (.app 2 (.var 0 4) (.var 0 0))
          (.app 0 (.app 0 (.var 0 0) (.atom 0 7)) (.var 0 2)) := by
  -- the first value is open and goes below a binder; one application has nothing to replace
  intro value t values
  have ht : Built t := built_iff_coherent.mpr (by decide)
  have hcoherent : ∀ v ∈ values, v.Coherent := by decide
  have hv : ∀ v ∈ values, Built v := fun v hm => built_iff_coherent.mpr (hcoherent v hm)
  have hi : t.IndicesSmall := by decide
  have hsize : values.size < UInt32.size := by decide
  have hroom : ∀ s ∈ t.pathSums, s + Term.mostBinders values ≤ UInt32.size - 1 := by decide
  obtain ⟨hloop, hplain, hresult⟩ := instantiate_plain ht hv hi hsize
  obtain ⟨u, hu⟩ := hresult hroom
  obtain ⟨hfused, -, -⟩ := hplain u ((hloop u).mp hu)
  exact ⟨ht, hv, hi, hsize, hroom, by decide, u, hu, hfused.trans (by decide)⟩

/-! ## Terms that are reported closed -/

def Occurrence.AtLimit (o : Occurrence) : Prop :=
  o.index = UInt32.size - 1 ∧ o.depth = UInt32.size - 1

theorem Term.index_lt_of_mem_occurrences {t : Term} {d : Nat} {o : Occurrence}
    (h : o ∈ t.occurrences d) : o.index < UInt32.size := by
  induction t generalizing d with
  | var binders index =>
    rw [List.mem_singleton.mp h]
    exact index.toNat_lt
  | atom => cases h
  | app _ _ _ _ ihf iha =>
    rcases List.mem_append.mp h with h | h
    · exact ihf h
    · exact iha h

theorem Occurrence.reach_eq_zero_iff {o : Occurrence} (h : o.index < UInt32.size) :
    o.reach ≤ 0 ↔ o.index < o.depth ∨ o.AtLimit := by
  unfold reach AtLimit
  omega

theorem Term.isClosed_iff_occurrences {t : Term} (ht : t.Coherent) :
    t.isClosed = true ↔ ∀ o ∈ t.occurrences 0, o.index < o.depth ∨ o.AtLimit := by
  have hzero : t.isClosed = true ↔ t.looseRange.toNat ≤ 0 + 0 := by
    rw [isClosed, beq_iff_eq, ← UInt32.toNat_inj]
    simp
  rw [hzero, looseRange_le_iff_reach ht]
  refine forall₂_congr fun o ho => ?_
  exact Occurrence.reach_eq_zero_iff (index_lt_of_mem_occurrences ho)

/-- **A term that is reported closed is closed, but for variables at the limit.** Ranges saturate,
so index `2 ^ 32 - 1` passes for bound below `2 ^ 32 - 1` binders. Where no variable is at this
limit, the report is right and no substitution changes the term. -/
theorem Built.isClosed_iff_bound {t : Term} (h : Built t) :
    (t.isClosed = true ↔ ∀ o ∈ t.occurrences 0, o.index < o.depth ∨ o.AtLimit) ∧
    ((t.isClosed = true ↔ t.Closed) ↔
      (t.isClosed = true → ∀ o ∈ t.occurrences 0, ¬ o.AtLimit)) ∧
    (t.isClosed = true → (∀ o ∈ t.occurrences 0, ¬ o.AtLimit) →
      ∀ values, t.fused.subst values 0 = t.fused) := by
  have hreported := Term.isClosed_iff_occurrences h.coherent
  have hclosed : t.Closed ↔ ∀ o ∈ t.occurrences 0, o.index < o.depth :=
    Term.scopedUnder_iff_occurrences 0
  have hexact : t.isClosed = true → ((∀ o ∈ t.occurrences 0, ¬ o.AtLimit) ↔ t.Closed) := by
    intro hreport
    rw [hclosed]
    constructor
    · intro hlimit o ho
      exact (hreported.mp hreport o ho).resolve_right (hlimit o ho)
    · rintro hbound o ho ⟨hindex, hdepth⟩
      have hlt := hbound o ho
      omega
  refine ⟨hreported, ⟨?_, ?_⟩, ?_⟩
  · intro hiff hreport
    exact (hexact hreport).mpr (hiff.mp hreport)
  · intro hlimit
    refine ⟨fun hreport => (hexact hreport).mp (hlimit hreport), fun hc => ?_⟩
    exact hreported.mpr fun o ho => .inl (hclosed.mp hc o ho)
  · intro hreport hlimit values
    exact Term.subst_of_scopedUnder ((hexact hreport).mp hlimit) values

theorem Built.isClosed_iff_bound_below_more :
    let t := ((Term.var 1 4294967295).apply (.atom 0 7)).withBinders 4294967295
    Built t ∧ t.isClosed = true ∧ t.Closed ∧ (∀ o ∈ t.occurrences 0, ¬ o.AtLimit) ∧
      t.fused.subst [.atom 0 5] 0 = t.fused := by
  intro t
  have ht : Built t := built_iff_coherent.mpr (by decide)
  have hreport : t.isClosed = true := by decide
  have hlimit : ∀ o ∈ t.occurrences 0, ¬ o.AtLimit := by
    simp [t, Term.occurrences, Term.apply, Term.withBinders, Occurrence.AtLimit]
  obtain ⟨-, hexact, hsubst⟩ := isClosed_iff_bound ht
  exact ⟨ht, hreport, (hexact.mpr fun _ => hlimit).mp hreport, hlimit, hsubst hreport hlimit _⟩

theorem Built.isClosed_at_limit :
    let leaf := Term.var 4294967295 4294967295
    let t := ((Term.var 0 4294967295).apply (.atom 0 7)).withBinders 4294967295
    Built leaf ∧ leaf.isClosed = true ∧ ¬ leaf.Closed ∧
      Built t ∧ t.isClosed = true ∧ ¬ t.Closed ∧ t.instantiate #[.atom 0 5] = .ok t ∧
      t.fused.subst [.atom 0 5] 0 = .app 4294967295 (.atom 0 5) (.atom 0 7) := by
  -- the plain substitution replaces the variable, which is loose; instantiation leaves it alone
  intro leaf t
  have hleaf : Built leaf := built_iff_coherent.mpr (by decide)
  have ht : Built t := built_iff_coherent.mpr (by decide)
  exact ⟨hleaf, by decide, by decide, ht, by decide, by decide, by decide +kernel, by decide⟩

end WeakHead
