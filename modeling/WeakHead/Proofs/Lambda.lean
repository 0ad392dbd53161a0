import WeakHead.Proofs.Reach

/-!
# Lambda terms with one binder a node

The textbook side of the theory: binders are nodes of their own, indices are
natural numbers, and a value that is put below binders is shifted. `unfuse`
spreads the binders of a term over as many nodes.
-/

namespace WeakHead

inductive Lambda where
  | var (index : Nat)
  | atom (id : UInt32)
  | lam (body : Lambda)
  | app (func arg : Lambda)
  deriving DecidableEq, Repr

namespace Lambda

def shift (n : Nat) : Nat → Lambda → Lambda
  | cutoff, .var index => if index < cutoff then .var index else .var (index + n)
  | _, .atom id => .atom id
  | cutoff, .lam body => .lam (body.shift n (cutoff + 1))
  | cutoff, .app func arg => .app (func.shift n cutoff) (arg.shift n cutoff)

/-- Replaces index `d + k` by `values[k]`, raised past the `d` binders that have been crossed, and
lowers every larger index by the number of values. -/
def subst (values : List Lambda) : Nat → Lambda → Lambda
  | d, .var index =>
    if index < d then .var index
    else match values[index - d]? with
      | some value => value.shift d 0
      | none => .var (index - values.length)
  | _, .atom id => .atom id
  | d, .lam body => .lam (body.subst values (d + 1))
  | d, .app func arg => .app (func.subst values d) (arg.subst values d)

/-- Every index is less than the number of binders around it, with `d` more around the term. -/
def ScopedUnder : Nat → Lambda → Prop
  | d, .var index => index < d
  | _, .atom _ => True
  | d, .lam body => body.ScopedUnder (d + 1)
  | d, .app func arg => func.ScopedUnder d ∧ arg.ScopedUnder d

def lams : Nat → Lambda → Lambda
  | 0, t => t
  | n + 1, t => .lam (lams n t)

/-! ## Closed values -/

theorem scopedUnder_var {index d : Nat} : (var index).ScopedUnder d ↔ index < d := Iff.rfl

theorem ScopedUnder.mono {t : Lambda} {c d : Nat} (h : t.ScopedUnder c) (hcd : c ≤ d) :
    t.ScopedUnder d := by
  induction t generalizing c d with
  | var => exact Nat.lt_of_lt_of_le h hcd
  | atom => trivial
  | lam _ ih => exact ih h (by omega)
  | app _ _ ihf iha => exact ⟨ihf h.1 hcd, iha h.2 hcd⟩

theorem shift_of_scopedUnder {t : Lambda} {c : Nat} (h : t.ScopedUnder c) (n : Nat) :
    t.shift n c = t := by
  induction t generalizing c with
  | var => rw [shift, if_pos (scopedUnder_var.mp h)]
  | atom => rfl
  | lam _ ih => rw [shift, ih h]
  | app _ _ ihf iha => rw [shift, ihf h.1, iha h.2]

theorem subst_of_scopedUnder {t : Lambda} {d : Nat} (h : t.ScopedUnder d) (values : List Lambda) :
    t.subst values d = t := by
  induction t generalizing d with
  | var => rw [subst, if_pos (scopedUnder_var.mp h)]
  | atom => rfl
  | lam _ ih => rw [subst, ih h]
  | app _ _ ihf iha => rw [subst, ihf h.1, iha h.2]

theorem subst_nil (t : Lambda) (d : Nat) : t.subst [] d = t := by
  induction t generalizing d with
  | var index => simp [subst]
  | atom => rfl
  | lam _ ih => rw [subst, ih]
  | app _ _ ihf iha => rw [subst, ihf, iha]

theorem subst_var_of_closed {values : List Lambda} (hv : ∀ v ∈ values, v.ScopedUnder 0)
    {d k : Nat} {v : Lambda} (hk : values[k]? = some v) : (var (d + k)).subst values d = v := by
  have hd : ¬ d + k < d := by omega
  simp only [subst, if_neg hd, Nat.add_sub_cancel_left, hk]
  exact shift_of_scopedUnder (hv v (List.mem_of_getElem? hk)) d

theorem subst_subst_snoc {vs : List Lambda} {v : Lambda} (hvs : ∀ w ∈ vs, w.ScopedUnder 0)
    (hv : v.ScopedUnder 0) (t : Lambda) (d : Nat) :
    (t.subst [v] (d + vs.length)).subst vs d = t.subst (vs ++ [v]) d := by
  have hall : ∀ w ∈ vs ++ [v], w.ScopedUnder 0 := by
    intro w hw
    rcases List.mem_append.mp hw with hw | hw
    · exact hvs w hw
    · rwa [List.mem_singleton.mp hw]
  induction t generalizing d with
  | atom => rfl
  | lam body ih =>
    simp only [subst, lam.injEq]
    rw [show d + vs.length + 1 = d + 1 + vs.length by omega]
    exact ih (d + 1)
  | app _ _ ihf iha => simp only [subst, ihf, iha]
  | var index =>
    rcases Nat.lt_or_ge index d with hd | hd
    · simp [subst, hd, show index < d + vs.length by omega]
    obtain ⟨k, rfl⟩ := Nat.exists_eq_add_of_le hd
    rcases Nat.lt_trichotomy k vs.length with hk | rfl | hk
    · -- the variable of a value of `vs`, which the first substitution keeps
      have hget : vs[k]? = some vs[k] := List.getElem?_eq_getElem hk
      have hfirst : (var (d + k)).subst [v] (d + vs.length) = var (d + k) :=
        subst_of_scopedUnder (scopedUnder_var.mpr (by omega)) _
      rw [hfirst, subst_var_of_closed hvs hget,
        subst_var_of_closed hall (by rw [List.getElem?_append_left hk, hget])]
    · -- the variable of `v`, in which `vs` finds nothing to replace
      have hfirst : (var (d + vs.length)).subst [v] (d + vs.length) = v :=
        subst_var_of_closed (k := 0) (by simpa using hv) rfl
      rw [hfirst, subst_of_scopedUnder (hv.mono (Nat.zero_le d)),
        subst_var_of_closed (v := v) hall (by simp)]
    · -- a variable beyond all values, lowered twice
      have h1 : ¬ d + k < d + vs.length := by omega
      have h2 : ¬ d + k - 1 < d := by omega
      have h3 : ¬ d + k < d := by omega
      have e1 : [v][d + k - (d + vs.length)]? = none := by
        rw [List.getElem?_eq_none_iff, List.length_singleton]; omega
      have e2 : vs[d + k - 1 - d]? = none := by rw [List.getElem?_eq_none_iff]; omega
      have e3 : (vs ++ [v])[d + k - d]? = none := by
        rw [List.getElem?_eq_none_iff, List.length_append, List.length_singleton]; omega
      simp only [subst, if_neg h1, e1, List.length_singleton, if_neg h2, e2, if_neg h3, e3,
        List.length_append]
      congr 1
      omega

/-! ## Many binders -/

@[simp] theorem lams_zero (t : Lambda) : lams 0 t = t := rfl

theorem lams_add (m n : Nat) (t : Lambda) : lams (m + n) t = lams m (lams n t) := by
  induction m with
  | zero => rw [Nat.zero_add, lams_zero]
  | succ m ih => rw [Nat.succ_add, lams, lams, ih]

theorem subst_lams (values : List Lambda) (n d : Nat) (t : Lambda) :
    (lams n t).subst values d = lams n (t.subst values (d + n)) := by
  induction n generalizing d with
  | zero => rfl
  | succ n ih => rw [lams, subst, ih, lams, Nat.add_right_comm, Nat.add_assoc]

theorem scopedUnder_lams (n d : Nat) (t : Lambda) :
    (lams n t).ScopedUnder d ↔ t.ScopedUnder (d + n) := by
  induction n generalizing d with
  | zero => rfl
  | succ n ih => rw [lams, ScopedUnder, ih, Nat.add_right_comm, Nat.add_assoc]

theorem lams_inj {m n : Nat} {t u : Lambda} (ht : ∀ b, t ≠ .lam b) (hu : ∀ b, u ≠ .lam b)
    (h : lams m t = lams n u) : m = n ∧ t = u := by
  induction m generalizing n with
  | zero =>
    cases n with
    | zero => exact ⟨rfl, h⟩
    | succ n => exact absurd h (ht _)
  | succ m ih =>
    cases n with
    | zero => exact absurd h.symm (hu _)
    | succ n =>
      obtain ⟨rfl, htu⟩ := ih (lam.inj h)
      exact ⟨rfl, htu⟩

end Lambda

/-! ## Spreading binders -/

namespace Term

/-- The term with a node for each of its binders. -/
def unfuse : Term → Lambda
  | .var binders index => .lams binders.toNat (.var index.toNat)
  | .atom binders id => .lams binders.toNat (.atom id)
  | .app binders _ func arg => .lams binders.toNat (.app func.unfuse arg.unfuse)

section
variable {n : UInt32} {t u : Term}

theorem unfuse_withBinders : (t.withBinders n).unfuse = .lams n.toNat t.body.unfuse := by
  cases t <;> rfl

theorem unfuse_eq_lams : t.unfuse = .lams t.binders.toNat t.body.unfuse := by
  rw [← unfuse_withBinders, withBinders_binders]

theorem unfuse_addBinders (h : t.addBinders n = .ok u) : u.unfuse = .lams n.toNat t.unfuse := by
  obtain ⟨hn, hu⟩ := addBinders_eq_ok_iff.mp h
  rw [hu, unfuse_withBinders, hn, Nat.add_comm, Lambda.lams_add, ← unfuse_eq_lams]

theorem unfuse_body_ne_lam (t : Term) (b : Lambda) : t.body.unfuse ≠ .lam b := by
  cases t <;> simp [body, withBinders, unfuse]

theorem binders_eq_of_unfuse_eq (h : t.unfuse = u.unfuse) :
    t.binders = u.binders ∧ t.body.unfuse = u.body.unfuse := by
  rw [unfuse_eq_lams, unfuse_eq_lams (t := u)] at h
  obtain ⟨hb, hbody⟩ := Lambda.lams_inj (unfuse_body_ne_lam t) (unfuse_body_ne_lam u) h
  exact ⟨UInt32.toNat_inj.mp hb, hbody⟩

theorem scopedUnder_unfuse (d : Nat) : t.unfuse.ScopedUnder d ↔ t.ScopedUnder d := by
  induction t generalizing d with
  | var => rw [unfuse, Lambda.scopedUnder_lams]; rfl
  | atom => rw [unfuse, Lambda.scopedUnder_lams]; rfl
  | app _ _ _ _ ihf iha =>
    rw [unfuse, Lambda.scopedUnder_lams, Lambda.ScopedUnder, ihf, iha]; rfl

end

end Term

end WeakHead
