import WeakHead.Proofs.ParseComplete

/-!
# Ends of constructs, one at a time

A `)` ends the abstractions inside its group and then the group, and the end of
the text ends all that is open. Both are told here as the end of the innermost
construct, with the same token or the end of the text still to be taken after
it.
-/

namespace WeakHead

namespace Reading

def demand (stop : Located Stop) (r : Reading) : Reading :=
  if r.current.isNone then r.report stop.position (.missingTerm stop.value) else r

/-- Ends all open constructs, when it has been said that a group is open. -/
def endAll (p : Position) (r : Reading) : Checked Reading := do
  let r ← r.enclosures.foldlM (leave ⟨p, .endOfText⟩) { r with enclosures := [] }
  return r.demand ⟨p, .endOfText⟩

section
variable {r r' : Reading} {e : Enclosure} {es : List Enclosure} {stop : Located Stop}
  {p : Position} {n : UInt32}

theorem leave_changes (h : leave stop r e = .ok r') :
    r'.enclosures = r.enclosures ∧ r'.heading = r.heading ∧
      r'.scope = r.scope.drop e.opening.binders.toNat := by
  unfold leave at h
  cases hr : r.current with
  | none =>
    rw [hr] at h
    cases h
    exact ⟨rfl, rfl, rfl⟩
  | some t =>
    rw [hr] at h
    obtain ⟨u, -, h⟩ := Checked.bind_eq_ok_iff.mp h
    cases h
    exact ⟨enclosures_add _ _, heading_add _ _, scope_add _ _⟩

theorem leave_with_enclosures (h : leave stop r e = .ok r') (es : List Enclosure) :
    leave stop { r with enclosures := es } e = .ok { r' with enclosures := es } := by
  unfold leave at h ⊢
  cases hr : r.current with
  | none =>
    rw [hr] at h
    cases h
    rfl
  | some t =>
    rw [hr] at h
    obtain ⟨u, hu, h⟩ := Checked.bind_eq_ok_iff.mp h
    cases h
    refine Checked.bind_eq_ok_iff.mpr ⟨u, hu, ?_⟩
    rw [add_with_enclosures]
    rfl

/-! ## Abstractions inside a group -/

theorem leaveAbstractions_of_nil (hheading : r.heading = none) (hr : r.enclosures = [])
    (stop : Located Stop) : r.leaveAbstractions stop = .ok r := by
  refine (unwinds_self hheading).leaveAbstractions ?_ stop
  rw [hr]
  nofun

theorem leaveAbstractions_of_group (hheading : r.heading = none) (hr : r.enclosures = e :: es)
    (he : e.opening = .group) (stop : Located Stop) : r.leaveAbstractions stop = .ok r := by
  refine (unwinds_self hheading).leaveAbstractions ?_ stop
  rw [hr]
  rintro _ ⟨⟩
  rw [he]
  rfl

theorem leaveAbstractions_of_abstraction (hr : r.enclosures = e :: es)
    (he : e.opening = .abstraction n)
    (hleave : leave stop { r with enclosures := es } e = .ok r') :
    r.leaveAbstractions stop = r'.leaveAbstractions stop := by
  have hinner : e.opening.isAbstraction = true := by
    rw [he]
    rfl
  have hes : r'.enclosures = es := (leave_changes hleave).1
  rw [leaveAbstractions, leaveAbstractions, hr, hes]
  simp only [List.takeWhile_cons, List.dropWhile_cons, hinner, if_true, List.foldlM_cons]
  rw [leave_with_enclosures hleave (es.dropWhile (·.opening.isAbstraction))]
  rfl

/-! ## A closing parenthesis -/

theorem close_of_abstraction (hr : r.enclosures = e :: es) (he : e.opening = .abstraction n)
    (hleave : leave ⟨p, .closing⟩ { r with enclosures := es } e = .ok r') :
    r.close p = r'.close p := by
  rw [close, close, leaveAbstractions_of_abstraction hr he hleave]

theorem close_of_group (hheading : r.heading = none) (hr : r.enclosures = e :: es)
    (he : e.opening = .group) :
    r.close p = leave ⟨p, .closing⟩ { r with enclosures := es } e := by
  rw [close, leaveAbstractions_of_group hheading hr he]
  simp only [bind, Except.bind, hr]

theorem close_of_nil (hheading : r.heading = none) (hr : r.enclosures = []) :
    r.close p = .ok ((r.demand ⟨p, .closing⟩).report p .unmatchedClosing) := by
  rw [close, leaveAbstractions_of_nil hheading hr]
  simp only [bind, Except.bind, hr]
  rfl

/-! ## The end of the text -/

theorem endAll_of_nil (hr : r.enclosures = []) :
    r.endAll p = .ok (r.demand ⟨p, .endOfText⟩) := by
  rw [endAll, hr]
  cases r
  cases hr
  rfl

theorem endAll_of_cons (hr : r.enclosures = e :: es)
    (hleave : leave ⟨p, .endOfText⟩ { r with enclosures := es } e = .ok r') :
    r.endAll p = r'.endAll p := by
  have hes : r'.enclosures = es := (leave_changes hleave).1
  have hleave' := leave_with_enclosures hleave []
  rw [endAll, endAll, hr, hes, List.foldlM_cons]
  simp only [hleave']
  rfl

theorem finish_of_heading (hr : r.heading = some n) :
    r.finish p = ((r.report p (.brokenBinders none)).enter (.abstraction n)).finish p := by
  rw [finish, finish, hr]
  rfl

theorem finish_of_abstraction (hheading : r.heading = none) (hr : r.enclosures = e :: es)
    (he : e.opening = .abstraction n)
    (hleave : leave ⟨p, .endOfText⟩ { r with enclosures := es } e = .ok r') :
    r.finish p = r'.finish p := by
  have hheading' : r'.heading = none := (leave_changes hleave).2.1.trans hheading
  rw [finish, finish, hheading, hheading']
  simp only [leaveAbstractions_of_abstraction hr he hleave]

theorem finish_of_group (hheading : r.heading = none) (hr : r.enclosures = e :: es)
    (he : e.opening = .group)
    (hleave : leave ⟨p, .endOfText⟩ { r with enclosures := es } e = .ok r') :
    r.finish p = (r'.report p .unclosedGroup).endAll p := by
  have hes : (r'.report p .unclosedGroup).enclosures = es := (leave_changes hleave).1
  have hleave' := leave_with_enclosures hleave []
  rw [finish, hheading, endAll, hes]
  simp only [leaveAbstractions_of_group hheading hr he, bind, Except.bind, hr, hleave']
  rfl

theorem finish_of_nil (hheading : r.heading = none) (hr : r.enclosures = []) :
    r.finish p = .ok (r.demand ⟨p, .endOfText⟩) := by
  rw [finish, hheading]
  simp only [leaveAbstractions_of_nil hheading hr, bind, Except.bind, hr]
  rfl

theorem exists_current_of_finish (h : r.finish p = .ok r') (hclean : r'.problems = #[]) :
    ∃ t, r'.current = some t := by
  have hend : ∀ q : Reading, (.ok (q.demand ⟨p, .endOfText⟩) : Checked Reading) = .ok r' →
      ∃ t, r'.current = some t := by
    intro q hq
    cases hq
    unfold demand at hclean ⊢
    by_cases hnone : q.current.isNone = true
    · rw [if_pos hnone] at hclean
      simp [report] at hclean
    · rw [if_neg hnone]
      exact Option.ne_none_iff_exists'.mp (by simpa using hnone)
  obtain ⟨r₁, -, h⟩ := Checked.bind_eq_ok_iff.mp h
  cases hes : r₁.enclosures with
  | nil =>
    rw [hes] at h
    exact hend r₁ h
  | cons e es =>
    rw [hes] at h
    obtain ⟨r₂, -, h⟩ := Checked.bind_eq_ok_iff.mp h
    obtain ⟨r₃, -, h⟩ := Checked.bind_eq_ok_iff.mp h
    exact hend r₃ h

end

end Reading

end WeakHead
