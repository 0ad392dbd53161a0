import WeakHead.Proofs.Parsing

/-!
# Properties that a reading hands on

The terms of a reading come from names, by application and by abstraction. A
property that these hand on holds of every program that is read. It need not
hold of what stands for an unknown name: with a problem there is no program.
-/

namespace WeakHead

structure Composed (Q : Term → Prop) : Prop where
  var : ∀ index, Q (.var 0 index)
  apply : ∀ {func arg : Term}, Q func → Q arg → Q (func.apply arg)
  addBinders : ∀ {n : UInt32} {t u : Term}, Q t → t.addBinders n = .ok u → Q u

namespace Reading

/-- As long as there are no problems, the property holds of the terms that have been read. -/
def Carries (Q : Term → Prop) (r : Reading) : Prop :=
  r.problems = #[] →
    (∀ t ∈ r.current, Q t) ∧ ∀ e ∈ r.enclosures, ∀ t ∈ e.before, Q t

theorem carries_start {Q : Term → Prop} : Carries Q .start :=
  fun _ => ⟨by simp [start], by simp [start]⟩

section
variable {Q : Term → Prop} {r r' : Reading} {e : Enclosure}

theorem carries_report (r : Reading) (position : Position) (problem : Problem) :
    (r.report position problem).Carries Q := fun hclean =>
  absurd hclean (problems_report_ne _ _ _)

theorem Carries.enter (h : r.Carries Q) (opening : Opening) : (r.enter opening).Carries Q := by
  intro hclean
  obtain ⟨hcurrent, houter⟩ := h hclean
  exact ⟨by simp [Reading.enter], List.forall_mem_cons.mpr ⟨hcurrent, houter⟩⟩

theorem Carries.outer (h : r.Carries Q) {es es' : List Enclosure} (hes : r.enclosures = es' ++ es) :
    Carries Q { r with enclosures := es } ∧
      (r.problems = #[] → ∀ e ∈ es', ∀ t ∈ e.before, Q t) := by
  have hall := fun hclean => List.forall_mem_append.mp (hes ▸ (h hclean).2)
  exact ⟨fun hclean => ⟨(h hclean).1, (hall hclean).2⟩, fun hclean => (hall hclean).1⟩

end

section
variable {Q : Term → Prop} (hQ : Composed Q) {r r' : Reading} {stop : Located Stop}
  {e : Enclosure} {es : List Enclosure} {t : Term}

include hQ

theorem Carries.add (h : r.Carries Q) (ht : Q t) : (r.add t).Carries Q := by
  intro hclean
  rw [problems_add] at hclean
  obtain ⟨hcurrent, houter⟩ := h hclean
  rw [enclosures_add]
  refine ⟨?_, houter⟩
  cases hc : r.current with
  | none =>
    rw [add_of_current_none hc]
    simpa using ht
  | some func =>
    rw [add_of_current_some hc]
    simpa using hQ.apply (hcurrent func hc) ht

theorem Carries.addName (h : r.Carries Q) (position : Position) (name : String) :
    (r.addName position name).Carries Q := by
  unfold Reading.addName
  cases r.scope.idxOf? name with
  | some index => exact h.add hQ (hQ.var _)
  | none =>
    intro hclean
    rw [problems_add] at hclean
    exact absurd hclean (problems_report_ne _ _ _)

theorem Carries.leave (h : r.Carries Q) (he : r.problems = #[] → ∀ t ∈ e.before, Q t)
    (hleave : leave stop r e = .ok r') : r'.Carries Q := by
  intro hclean
  obtain ⟨hr, t, u, ht, hu, rfl⟩ := leave_eq_ok hleave hclean
  obtain ⟨hcurrent, houter⟩ := h hr
  refine Carries.add hQ ?_ (hQ.addBinders (hcurrent t ht) hu) hclean
  exact fun _ => ⟨he hr, houter⟩

theorem Carries.leaves (h : r.Carries Q) (hes : r.problems = #[] → ∀ e ∈ es, ∀ t ∈ e.before, Q t)
    (hleave : es.foldlM (Reading.leave stop) r = .ok r') : r'.Carries Q := by
  intro hclean
  have hr := (adds_leaves hleave).problems_eq_empty hclean
  exact Checked.foldlM_inv (fun e he _ _ hr' => hr'.leave hQ fun _ => hes hr e he) h hleave hclean

theorem Carries.leaveAbstractions (h : r.Carries Q) (hleave : r.leaveAbstractions stop = .ok r') :
    r'.Carries Q := by
  obtain ⟨houter, hinner⟩ := h.outer
    (List.takeWhile_append_dropWhile (p := fun e => e.opening.isAbstraction)).symm
  exact houter.leaves hQ hinner hleave

theorem Carries.close (h : r.Carries Q) {position : Position}
    (hclose : r.close position = .ok r') : r'.Carries Q := by
  intro hclean
  obtain ⟨r₁, e, es, hr₁, hclean₁, hes, hleave⟩ := close_eq_ok hclose hclean
  have hes : r₁.enclosures = [e] ++ es := hes
  obtain ⟨houter, hbefore⟩ := (h.leaveAbstractions hQ hr₁).outer hes
  have he := hbefore hclean₁ e List.mem_cons_self
  exact houter.leave hQ (fun _ => he) hleave hclean

theorem Carries.step (h : r.Carries Q) {tok : Located Token} (hstep : r.step tok = .ok r') :
    r'.Carries Q := by
  unfold Reading.step at hstep
  cases hheading : r.heading with
  | none =>
    rw [hheading] at hstep
    cases ht : tok.value with
    | name text => rw [ht] at hstep; cases hstep; exact h.addName hQ _ _
    | lambda sign => rw [ht] at hstep; cases hstep; exact h
    | opening => rw [ht] at hstep; cases hstep; exact h.enter _
    | closing => rw [ht] at hstep; exact h.close hQ hstep
    | separator sign => rw [ht] at hstep; cases hstep; exact carries_report _ _ _
  | some n =>
    rw [hheading] at hstep
    dsimp only at hstep
    unfold stepHeading at hstep
    cases ht : tok.value with
    | name text =>
      rw [ht] at hstep
      obtain ⟨m, _, hstep⟩ := Checked.bind_eq_ok_iff.mp hstep
      cases hstep
      exact h
    | separator sign => rw [ht] at hstep; cases hstep; exact h.enter _
    | lambda sign => rw [ht] at hstep; cases hstep; exact (carries_report _ _ _).enter _
    | opening => rw [ht] at hstep; cases hstep; exact (carries_report _ _ _).enter _
    | closing => rw [ht] at hstep; cases hstep; exact (carries_report _ _ _).enter _

end

end Reading

theorem Composed.of_parse {Q : Term → Prop} (hQ : Composed Q) {file source : String} {t : Term}
    (h : parse file source = .ok (.ok t)) : Q t := by
  obtain ⟨r, r', hr, hr', -, hclean, hcurrent⟩ := parse_eq_ok_iff.mp h
  obtain ⟨-, hleave, -⟩ := Reading.finish_eq_ok hr' hclean
  have hread : r.Carries Q :=
    Checked.foldlM_inv (fun _ _ _ _ h => h.step hQ) Reading.carries_start hr
  exact (hread.leaveAbstractions hQ hleave hclean).1 t hcurrent

end WeakHead
