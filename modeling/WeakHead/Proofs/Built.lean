import WeakHead.Proofs.ReadTerms
import WeakHead.Proofs.Rendering
import WeakHead.Proofs.Substitution
import WeakHead.Proofs.TermInvariants

/-!
# Terms that can be built

However a term has been built, from its parts, from a text, by instantiation
or as the result of a run, the ranges that it carries are determined by its
shape, so its written form determines the term. A range is computed level by
level and in words that saturate; it comes to the farthest that a variable
below the application reaches, which is its index less the binders on the way.
-/

namespace WeakHead

inductive Built : Term → Prop
  | var (index : UInt32) : Built (.var 0 index)
  | atom (id : UInt32) : Built (.atom 0 id)
  | apply {func arg : Term} (hf : Built func) (ha : Built arg) : Built (func.apply arg)
  | addBinders {n : UInt32} {t u : Term} (ht : Built t) (h : t.addBinders n = .ok u) : Built u
  | body {t : Term} (ht : Built t) : Built t.body
  | func {binders range : UInt32} {func arg : Term} (h : Built (.app binders range func arg)) :
    Built func
  | arg {binders range : UInt32} {func arg : Term} (h : Built (.app binders range func arg)) :
    Built arg
  | read {file source : String} {t : Term} (h : parse file source = .ok (.ok t)) : Built t
  | instantiate {t u : Term} {values : Array Term} (ht : Built t) (hv : ∀ v ∈ values, Built v)
    (h : t.instantiate values = .ok u) : Built u
  | halted {settings : Settings} {program whnf : Term} {input : Input} {sink : Sink} {n : Nat}
    {id : UInt32} {m : Machine} (hp : Built program)
    (h : Machine.run n (.start settings program input sink) = .ended (.halted id whnf) m) :
    Built whnf
  | stuck {settings : Settings} {program : Term} {input : Input} {sink : Sink} {n : Nat}
    {index : UInt32} {m : Machine} (hp : Built program)
    (h : Machine.run n (.start settings program input sink) = .ended (.stuck index) m) :
    Built (.var 0 index)

theorem composed_coherent : Composed Term.Coherent where
  var _ := trivial
  apply hf ha := Term.coherent_apply.mpr ⟨hf, ha⟩
  addBinders ht h := ht.addBinders h

theorem handedOn_coherent : HandedOn fun _ => Term.Coherent where
  atom _ _ := trivial
  ofBit _ _ := trivial
  func h := h.2.1
  arg h := h.2.2
  later h := h
  instantiate ht hv _ h :=
    (Term.instantiates_of_ok h).coherent (Term.coherent_withBinders.mpr ht) hv

theorem Built.coherent {t : Term} (h : Built t) : t.Coherent := by
  induction h with
  | var => trivial
  | atom => trivial
  | apply _ _ hf ha => exact Term.coherent_apply.mpr ⟨hf, ha⟩
  | addBinders _ h ht => exact ht.addBinders h
  | body _ ht => exact Term.coherent_withBinders.mpr ht
  | func _ h => exact h.2.1
  | arg _ h => exact h.2.2
  | read h => exact composed_coherent.of_parse h
  | instantiate _ _ h ht hv => exact (Term.instantiates_of_ok h).coherent ht hv
  | @halted settings program _ input sink n _ _ _ h hp =>
    have hstart : (Machine.start settings program input sink).Carries fun _ => Term.Coherent :=
      Machine.carries_start hp
    have hrun := handedOn_coherent.run hstart n
    rw [h] at hrun
    exact hrun.2
  | stuck => trivial

theorem built_iff_coherent {t : Term} : Built t ↔ t.Coherent := by
  refine ⟨Built.coherent, fun h => ?_⟩
  have hbelow : ∀ {t : Term}, t.binders = 0 → Built t → ∀ n, Built (t.withBinders n) := by
    intro t ht hbuilt n
    refine hbuilt.addBinders (n := n) (Term.addBinders_eq_ok_iff.mpr ?_)
    simp [ht]
  induction t with
  | var binders index => exact hbelow (t := .var 0 index) rfl (.var index) binders
  | atom binders id => exact hbelow (t := .atom 0 id) rfl (.atom id) binders
  | app binders range func arg ihf iha =>
    obtain ⟨rfl, hcf, hca⟩ := h
    exact hbelow (t := func.apply arg) rfl (.apply (ihf hcf) (iha hca)) binders

/-- **Terms are equal exactly if they are written alike.** Equality also compares the ranges, which
are not written. -/
theorem Built.render_eq_iff {t u : Term} (ht : Built t) (hu : Built u) :
    t.render = u.render ↔ t = u := by
  constructor
  · exact Term.render_inj ht.coherent hu.coherent
  · intro h
    rw [h]

theorem Built.render_eq_iff_identities :
    ∃ t u v : Term, parse "identities" "(\\x. x) \\x. x" = .ok (.ok t) ∧
      ((Term.var 0 0).apply (.var 0 0)).instantiate #[.var 1 0] = .ok u ∧
      v = ((Term.var 0 0).apply (.var 1 0)).withBinders 1 ∧ Built t ∧ Built u ∧ Built v ∧
      t.render = u.render ∧ t = u ∧ t ≠ v ∧ t.render ≠ v.render := by
  -- `(lam #0) lam #0` twice, read and instantiated, and the same written with other parentheses
  have hparse : parse "identities" "(\\x. x) \\x. x" =
      .ok (.ok ((Term.var 1 0).apply (.var 1 0))) := rfl
  have hinst : ((Term.var 0 0).apply (.var 0 0)).instantiate #[.var 1 0] =
      .ok ((Term.var 1 0).apply (.var 1 0)) := rfl
  have ht : Built ((Term.var 1 0).apply (.var 1 0)) := .read hparse
  have hid : Built (.var 1 0) := .addBinders (n := 1) (.var 0) rfl
  have hu : Built ((Term.var 1 0).apply (.var 1 0)) :=
    .instantiate (.apply (.var 0) (.var 0)) (by simpa using hid) hinst
  have hv : Built (((Term.var 0 0).apply (.var 1 0)).withBinders 1) :=
    .addBinders (n := 1) (.apply (.var 0) hid) rfl
  have hne : (Term.var 1 0).apply (.var 1 0) ≠ ((Term.var 0 0).apply (.var 1 0)).withBinders 1 := by
    decide
  exact ⟨_, _, _, hparse, hinst, rfl, ht, hu, hv, rfl, (render_eq_iff ht hu).mp rfl, hne,
    fun h => hne ((render_eq_iff ht hv).mp h)⟩

/-! ## Ranges and variables -/

theorem max?_getD_le_iff {xs : List Nat} {k : Nat} : xs.max?.getD 0 ≤ k ↔ ∀ x ∈ xs, x ≤ k := by
  cases h : xs.max? with
  | none =>
    rw [List.max?_eq_none_iff.mp h]
    simp
  | some a => exact List.max?_le_iff h

structure Occurrence where
  depth : Nat
  index : Nat
  deriving DecidableEq, Repr

/-- One past the index as it is seen from outside. Index `2 ^ 32 - 1` counts like the one before
it. -/
def Occurrence.reach (o : Occurrence) : Nat := min (o.index + 1) (UInt32.size - 1) - o.depth

def furthest (os : List Occurrence) : Nat := (os.map Occurrence.reach).max?.getD 0

theorem furthest_le_iff {os : List Occurrence} {k : Nat} :
    furthest os ≤ k ↔ ∀ o ∈ os, o.reach ≤ k := by
  rw [furthest, max?_getD_le_iff, List.forall_mem_map]

namespace Term

def occurrences : Nat → Term → List Occurrence
  | d, .var binders index => [⟨d + binders.toNat, index.toNat⟩]
  | _, .atom _ _ => []
  | d, .app binders _ func arg =>
    func.occurrences (d + binders.toNat) ++ arg.occurrences (d + binders.toNat)

def subterms : Term → List Term
  | .var binders index => [.var binders index]
  | .atom binders id => [.atom binders id]
  | .app binders range func arg => .app binders range func arg :: (func.subterms ++ arg.subterms)

section
variable {t s : Term}

theorem scopedUnder_iff_occurrences (d : Nat) :
    t.ScopedUnder d ↔ ∀ o ∈ t.occurrences d, o.index < o.depth := by
  induction t generalizing d with
  | var => simp [ScopedUnder, occurrences]
  | atom => simp [ScopedUnder, occurrences]
  | app _ _ _ _ ihf iha => rw [ScopedUnder, occurrences, ihf, iha, List.forall_mem_append]

theorem Coherent.of_mem_subterms (ht : t.Coherent) (hs : s ∈ t.subterms) : s.Coherent := by
  induction t with
  | var => rwa [List.mem_singleton.mp hs]
  | atom => rwa [List.mem_singleton.mp hs]
  | app binders range func arg ihf iha =>
    rcases List.mem_cons.mp hs with rfl | hs
    · exact ht
    · rcases List.mem_append.mp hs with hs | hs
      · exact ihf ht.2.1 hs
      · exact iha ht.2.2 hs

theorem looseRange_le_iff_reach (ht : t.Coherent) (d k : Nat) :
    t.looseRange.toNat ≤ d + k ↔ ∀ o ∈ t.occurrences d, o.reach ≤ k := by
  induction t generalizing d with
  | var binders index =>
    rw [looseRange, Word.toNat_monus, Word.toNat_next, occurrences, List.forall_mem_singleton]
    dsimp only [Occurrence.reach]
    omega
  | atom => simp [looseRange, occurrences]
  | app binders range func arg ihf iha =>
    obtain ⟨hr, hf, ha⟩ := ht
    rw [occurrences, List.forall_mem_append, ← ihf hf, ← iha ha, looseRange, Word.toNat_monus, hr,
      toNat_max]
    omega

theorem toNat_looseRange (ht : t.Coherent) : t.looseRange.toNat = furthest (t.occurrences 0) := by
  have hle : ∀ k, t.looseRange.toNat ≤ k ↔ furthest (t.occurrences 0) ≤ k := by
    intro k
    rw [furthest_le_iff, ← looseRange_le_iff_reach ht, Nat.zero_add]
  exact Nat.le_antisymm ((hle _).mpr (Nat.le_refl _)) ((hle _).mp (Nat.le_refl _))

theorem looseRange_eq_body (t : Term) :
    t.looseRange.toNat = t.body.looseRange.toNat - t.binders.toNat := by
  cases t with
  | var => simp [looseRange, body, withBinders, binders, Word.toNat_monus]
  | atom => simp [looseRange, body, withBinders]
  | app => simp [looseRange, body, withBinders, binders, Word.toNat_monus]

theorem toNat_range {binders range : UInt32} {func arg : Term}
    (h : (app binders range func arg).Coherent) :
    range.toNat = furthest (func.occurrences 0 ++ arg.occurrences 0) := by
  have hbody := toNat_looseRange (coherent_withBinders (n := 0).mpr h)
  simpa [looseRange, withBinders, occurrences, Word.toNat_monus] using hbody

end

end Term

/-- **The ranges of a term are those of its variables.** However a term has been built, each
application in it carries how far the variables below it reach out of it. -/
theorem Built.ranges_of_variables {t : Term} (h : Built t) :
    (∀ binders range func arg, .app binders range func arg ∈ t.subterms →
      range.toNat = furthest (func.occurrences 0 ++ arg.occurrences 0)) ∧
    t.looseRange.toNat = furthest (t.body.occurrences 0) - t.binders.toNat := by
  refine ⟨fun _ _ _ _ hs => Term.toNat_range (h.coherent.of_mem_subterms hs), ?_⟩
  have hbody : t.body.Coherent := Term.coherent_withBinders.mpr h.coherent
  rw [Term.looseRange_eq_body, Term.toNat_looseRange hbody]

theorem Built.ranges_of_variables_open :
    let t := ((Term.var 2 2).apply (.atom 0 7)).apply (.var 0 3)
    let value := Term.var 1 4294967295
    ∃ u range inner, t.instantiate #[value] = .ok u ∧
      u = .app 0 range (.app 0 inner (.var 3 4294967295) (.atom 0 7)) (.var 0 2) ∧
      Built u ∧ range.toNat = 4294967295 - 3 ∧ inner.toNat = 4294967295 - 3 ∧
      u.looseRange.toNat = 4294967295 - 3 := by
  -- an open value with the greatest index is put below two binders and reaches out by three less
  intro t value
  have hinst : t.instantiate #[value] = .ok (.app 0 4294967292
      (.app 0 4294967292 (.var 3 4294967295) (.atom 0 7)) (.var 0 2)) := by decide +kernel
  have hvalue : Built value := .addBinders (n := 1) (.var 4294967295) rfl
  have ht : Built t :=
    .apply (.apply (.addBinders (n := 2) (.var 2) rfl) (.atom 7)) (.var 3)
  have hu := Built.instantiate ht (by simpa using hvalue) hinst
  obtain ⟨hranges, hloose⟩ := ranges_of_variables hu
  have hfunc := hranges 0 4294967292 (.var 3 4294967295) (.atom 0 7) (by simp [Term.subterms])
  have hwhole := hranges 0 4294967292 (.app 0 4294967292 (.var 3 4294967295) (.atom 0 7)) (.var 0 2)
    (by simp [Term.subterms])
  exact ⟨_, _, _, hinst, rfl, hu, hwhole.trans (by decide), hfunc.trans (by decide),
    hloose.trans (by decide)⟩

end WeakHead
