import WeakHead.Proofs.ConstructEnds

/-!
# What a token reports

Reading goes on after a problem and forgets none. A token, or the end of the
text, reports at its own place whatever is found there, and never an invalid
character.
-/

namespace WeakHead

/-! ## How problems are told -/

namespace Problem

theorem message_unknownName (name : String) :
    message (.unknownName name) = "Unknown identifier '" ++ name ++ "'" := rfl

theorem message_strayToken (token : Token) :
    message (.strayToken token) = "Unexpected token '" ++ token.text ++ "'" := rfl

theorem message_brokenBinders (token : Token) : message (.brokenBinders (some token)) =
    "Unexpected token '" ++ token.text ++ "', expected identifier or '.'" := rfl

theorem head?_message {problem : Problem} (h : problem ≠ .invalidCharacter) :
    problem.message.toList.head? = some 'U' := by
  cases problem with
  | invalidCharacter => exact absurd rfl h
  | unknownName name => simp [message_unknownName]
  | strayToken token => simp [message_strayToken]
  | brokenBinders found =>
    cases found with
    | none => rfl
    | some token => simp [message_brokenBinders]
  | missingTerm stop => cases stop <;> rfl
  | unmatchedClosing => rfl
  | unclosedGroup => rfl

theorem message_ne_invalidCharacter {problem : Problem} (h : problem ≠ .invalidCharacter) :
    problem.message ≠ "Invalid character" := by
  intro hsame
  have hhead := head?_message h
  rw [hsame] at hhead
  exact absurd hhead (by decide)

end Problem

/-! ## One place -/

namespace Reading

/-- The reading `r'` has the problems of `r` and others, all of them at one place. -/
def Adds (p : Position) (r r' : Reading) : Prop :=
  ∃ new : List (Located Problem), r'.problems.toList = r.problems.toList ++ new ∧
    ∀ q ∈ new, q.position = p ∧ q.value ≠ .invalidCharacter

section
variable {r r' r'' : Reading} {p : Position} {stop : Located Stop} {e : Enclosure}
  {es : List Enclosure} {t : Located Token}

theorem adds_of_eq (h : r'.problems = r.problems) : r.Adds p r' :=
  ⟨[], by rw [h, List.append_nil], by simp⟩

theorem adds_report (r : Reading) {problem : Problem} (h : problem ≠ .invalidCharacter) :
    r.Adds p (r.report p problem) := by
  refine ⟨[⟨p, problem⟩], Array.toList_push .., ?_⟩
  intro q hq
  rw [List.mem_singleton.mp hq]
  exact ⟨rfl, h⟩

theorem Adds.problems_eq_empty (h : r.Adds p r') (hclean : r'.problems = #[]) :
    r.problems = #[] := by
  obtain ⟨new, hnew, -⟩ := h
  rw [← Array.toList_eq_nil_iff, hnew, List.append_eq_nil_iff] at hclean
  exact Array.toList_eq_nil_iff.mp hclean.1

theorem Adds.trans (h : r.Adds p r') (h' : r'.Adds p r'') : r.Adds p r'' := by
  obtain ⟨new, hr, hnew⟩ := h
  obtain ⟨new', hr', hnew'⟩ := h'
  exact ⟨new ++ new', by rw [hr', hr, List.append_assoc],
    List.forall_mem_append.mpr ⟨hnew, hnew'⟩⟩

theorem adds_leave (h : leave stop r e = .ok r') : r.Adds stop.position r' := by
  unfold leave at h
  cases hr : r.current with
  | none =>
    rw [hr] at h
    cases h
    exact (adds_of_eq rfl).trans (adds_report _ nofun)
  | some t =>
    rw [hr] at h
    obtain ⟨u, -, h⟩ := Checked.bind_eq_ok_iff.mp h
    cases h
    exact adds_of_eq (problems_add _ _)

theorem adds_leaves (h : es.foldlM (leave stop) r = .ok r') : r.Adds stop.position r' :=
  Checked.foldlM_inv (fun _ _ _ _ hadds hleave => hadds.trans (adds_leave hleave))
    (adds_of_eq rfl) h

theorem adds_leaveAbstractions (h : r.leaveAbstractions stop = .ok r') :
    r.Adds stop.position r' := by
  dsimp only [leaveAbstractions] at h
  have hleaves := adds_leaves h
  exact hleaves

theorem adds_demand (stop : Located Stop) (r : Reading) : r.Adds stop.position (r.demand stop) := by
  unfold demand
  split
  · exact adds_report r nofun
  · exact adds_of_eq rfl

theorem adds_close (h : r.close p = .ok r') : r.Adds p r' := by
  obtain ⟨r₁, h₁, h⟩ := Checked.bind_eq_ok_iff.mp h
  refine (adds_leaveAbstractions h₁).trans ?_
  cases hes : r₁.enclosures with
  | cons e es =>
    rw [hes] at h
    dsimp only at h
    have hleave := adds_leave h
    exact hleave
  | nil =>
    rw [hes] at h
    cases h
    exact (r₁.adds_demand ⟨p, .closing⟩).trans (adds_report _ nofun)

theorem adds_stepHeading {n : UInt32} (h : r.stepHeading n t = .ok r') :
    r.Adds t.position r' := by
  unfold stepHeading at h
  split at h
  · obtain ⟨m, -, h⟩ := Checked.bind_eq_ok_iff.mp h
    cases h
    exact adds_of_eq rfl
  · cases h
    exact adds_of_eq rfl
  · cases h
    have hreport : Problem.brokenBinders (some t.value) ≠ .invalidCharacter := nofun
    exact adds_report r hreport

theorem adds_addName (r : Reading) (p : Position) (name : String) :
    r.Adds p (r.addName p name) := by
  have hunknown : Problem.unknownName name ≠ .invalidCharacter := nofun
  unfold addName
  split
  · exact adds_of_eq (problems_add _ _)
  · exact (adds_report r hunknown).trans (adds_of_eq (problems_add _ _))

theorem adds_step (h : r.step t = .ok r') : r.Adds t.position r' := by
  unfold step at h
  split at h
  · exact adds_stepHeading h
  split at h
  · cases h
    exact adds_addName _ _ _
  · cases h
    exact adds_of_eq rfl
  · cases h
    exact adds_of_eq rfl
  · exact adds_close h
  · cases h
    exact adds_report r nofun

theorem adds_finish_of_body (hr : r.heading = none) (h : r.finish p = .ok r') : r.Adds p r' := by
  obtain ⟨r₁, h₁, h⟩ := Checked.bind_eq_ok_iff.mp h
  rw [hr] at h₁
  refine (adds_leaveAbstractions h₁).trans ?_
  cases hes : r₁.enclosures with
  | nil =>
    rw [hes] at h
    cases h
    exact r₁.adds_demand ⟨p, .endOfText⟩
  | cons e es =>
    rw [hes] at h
    obtain ⟨r₂, h₂, h⟩ := Checked.bind_eq_ok_iff.mp h
    obtain ⟨r₃, h₃, h⟩ := Checked.bind_eq_ok_iff.mp h
    cases h
    have hunclosed : Problem.unclosedGroup ≠ .invalidCharacter := nofun
    have hgroup := adds_leave h₂
    have hrest : r₂.Adds p r₃ := (r₂.adds_report hunclosed).trans (adds_leaves h₃)
    exact Adds.trans hgroup (hrest.trans (r₃.adds_demand ⟨p, .endOfText⟩))

theorem adds_finish (h : r.finish p = .ok r') : r.Adds p r' := by
  cases hr : r.heading with
  | none => exact adds_finish_of_body hr h
  | some n =>
    rw [finish_of_heading hr] at h
    have hbroken : Problem.brokenBinders none ≠ .invalidCharacter := nofun
    have hrest := adds_finish_of_body rfl h
    exact (r.adds_report hbroken).trans hrest

end

end Reading

end WeakHead
