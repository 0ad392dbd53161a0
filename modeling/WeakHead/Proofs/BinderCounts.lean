import WeakHead.Proofs.ConstructEnds

/-!
# Counting binders

While a text is read, the scope has the names that the open constructs bind.
Together with the binders of terms that can still get more, these names are no
more than the tokens read, so that a word can count all of them.
-/

namespace WeakHead

def boundBy : List Enclosure → Nat
  | [] => 0
  | e :: es => e.opening.binders.toNat + boundBy es

def bindersOf (t : Option Term) : Nat := t.elim 0 (·.binders.toNat)

def bindersBefore : List Enclosure → Nat
  | [] => 0
  | e :: es => bindersOf e.before + bindersBefore es

namespace Reading

def bound (r : Reading) : Nat := boundBy r.enclosures + r.heading.elim 0 (·.toNat)

/-- All binders: those of open constructs and those of terms that can get more. -/
def weight (r : Reading) : Nat :=
  r.bound + bindersBefore r.enclosures + bindersOf r.current

/-- How many turns the end of the text takes at most. -/
def openCount (r : Reading) : Nat := r.enclosures.length + r.heading.elim 0 fun _ => 2

/-- What a token changes that is taken at once: the scope has the names that are bound, with one
more binder and two more turns at most. -/
structure Grows (r r' : Reading) : Prop where
  scope_eq : r'.scope.length = r'.bound
  weight_le : r'.weight ≤ r.weight + 1
  openCount_le : r'.openCount ≤ r.openCount + 2

section
variable {r r' : Reading} {e : Enclosure} {es : List Enclosure} {stop : Located Stop}
  {p : Position} {t : Term} {o : Opening} {n : UInt32}

theorem bound_le_weight (r : Reading) : r.bound ≤ r.weight := by
  rw [weight]
  omega

theorem enter_counts (r : Reading) (h : o.binders.toNat = r.heading.elim 0 (·.toNat)) :
    (r.enter o).bound = r.bound ∧ (r.enter o).weight = r.weight := by
  have hbound : (r.enter o).bound = r.bound := by
    show o.binders.toNat + boundBy r.enclosures + 0 = _
    rw [bound, h]
    omega
  refine ⟨hbound, ?_⟩
  show (r.enter o).bound + (bindersOf r.current + bindersBefore r.enclosures) + 0 = _
  rw [hbound, weight]
  omega

theorem bindersOf_add (r : Reading) (t : Term) :
    bindersOf (r.add t).current ≤ t.binders.toNat := by
  cases hr : r.current with
  | none =>
    rw [add_of_current_none hr]
    exact Nat.le_refl _
  | some func =>
    rw [add_of_current_some hr]
    exact Nat.zero_le _

theorem demand_counts (stop : Located Stop) (r : Reading) :
    (r.demand stop).scope = r.scope ∧ (r.demand stop).bound = r.bound ∧
      (r.demand stop).weight = r.weight ∧ (r.demand stop).openCount = r.openCount := by
  unfold demand
  split <;> exact ⟨rfl, rfl, rfl, rfl⟩

/-! ## Tokens -/

theorem grows_add (hscope : r.scope.length = r.bound) (ht : t.binders = 0) : r.Grows (r.add t) := by
  have hcurrent := bindersOf_add r t
  have hbound : (r.add t).bound = r.bound := by rw [bound, enclosures_add, heading_add, bound]
  rw [ht, UInt32.toNat_zero] at hcurrent
  refine ⟨by rw [scope_add, hbound, hscope], ?_, ?_⟩
  · rw [weight, hbound, enclosures_add, weight]
    omega
  · rw [openCount, enclosures_add, heading_add]
    exact Nat.le_add_right _ 2

theorem grows_enter (hscope : r.scope.length = r.bound)
    (h : o.binders.toNat = r.heading.elim 0 (·.toNat)) : r.Grows (r.enter o) := by
  obtain ⟨hbound, hweight⟩ := enter_counts r h
  refine ⟨by rw [hbound]; exact hscope, by rw [hweight]; exact Nat.le_succ _, ?_⟩
  show r.enclosures.length + 1 + 0 ≤ r.enclosures.length + _ + 2
  omega

theorem grows_addName (hscope : r.scope.length = r.bound) (p : Position) (name : String) :
    r.Grows (r.addName p name) := by
  unfold addName
  split
  · exact grows_add hscope rfl
  · have hgrows := grows_add (r := r.report p (.unknownName name)) (t := .nil) hscope rfl
    exact ⟨hgrows.scope_eq, hgrows.weight_le, hgrows.openCount_le⟩

theorem exists_step_of_body {tok : Located Token} (hr : r.heading = none)
    (ht : tok.value ≠ .closing) (hscope : r.scope.length = r.bound) :
    ∃ r', r.step tok = .ok r' ∧ r.Grows r' := by
  obtain ⟨p, token⟩ := tok
  cases token with
  | name text =>
    have hstep : r.step (Located.token ⟨p, text⟩) = .ok (r.addName p text) := step_name hr
    exact ⟨_, hstep, grows_addName hscope p text⟩
  | lambda sign =>
    have hbound : ({ r with heading := some 0 } : Reading).bound = r.bound := by
      rw [bound, bound, hr]
      rfl
    refine ⟨_, step_lambda hr, hscope.trans hbound.symm, ?_, ?_⟩
    · rw [weight, hbound]
      exact Nat.le_succ _
    · rw [openCount, openCount, hr]
      exact Nat.le_refl _
  | opening => exact ⟨_, step_opening hr, grows_enter hscope (by rw [hr]; rfl)⟩
  | closing => exact absurd rfl ht
  | separator sign =>
    exact ⟨_, step_stray hr, hscope, Nat.le_succ _, Nat.le_add_right _ 2⟩

theorem exists_step_of_heading {tok : Located Token} (hr : r.heading = some n)
    (hweight : r.weight + 1 < UInt32.size) (hscope : r.scope.length = r.bound) :
    ∃ r', r.step tok = .ok r' ∧ r.Grows r' := by
  have henter : ∀ q : Reading, q.scope.length = q.bound → q.heading = some n →
      q.Grows (q.enter (.abstraction n)) :=
    fun q hq hqn => grows_enter hq (by rw [hqn]; rfl)
  obtain ⟨p, token⟩ := tok
  rw [step, hr]
  cases token with
  | name text =>
    have hbound : r.bound = boundBy r.enclosures + n.toNat := by
      rw [bound, hr]
      rfl
    have hle := r.bound_le_weight
    have hnext : (n + 1).toNat = n.toNat + 1 :=
      Nat.mod_eq_of_lt (show n.toNat + 1 < UInt32.size by omega)
    refine ⟨_, Checked.bind_eq_ok_iff.mpr ⟨_, Word.add_eq_ok_iff.mpr hnext, rfl⟩, ?_, ?_, ?_⟩
    · show r.scope.length + 1 = boundBy r.enclosures + (n + 1).toNat
      omega
    · show boundBy r.enclosures + (n + 1).toNat + bindersBefore r.enclosures +
        bindersOf r.current ≤ r.weight + 1
      rw [weight]
      omega
    · rw [openCount, openCount, hr]
      exact Nat.le_add_right _ 2
  | separator sign => exact ⟨_, rfl, henter r hscope hr⟩
  | lambda sign =>
    obtain ⟨hs, hw, hc⟩ := henter (r.report p (.brokenBinders _)) hscope hr
    exact ⟨_, rfl, hs, hw, hc⟩
  | opening =>
    obtain ⟨hs, hw, hc⟩ := henter (r.report p (.brokenBinders _)) hscope hr
    exact ⟨_, rfl, hs, hw, hc⟩
  | closing =>
    obtain ⟨hs, hw, hc⟩ := henter (r.report p (.brokenBinders _)) hscope hr
    exact ⟨_, rfl, hs, hw, hc⟩

theorem exists_step {tok : Located Token} (ht : r.heading = none → tok.value ≠ .closing)
    (hweight : r.weight + 1 < UInt32.size) (hscope : r.scope.length = r.bound) :
    ∃ r', r.step tok = .ok r' ∧ r.Grows r' := by
  cases hr : r.heading with
  | none => exact exists_step_of_body hr (ht hr) hscope
  | some n => exact exists_step_of_heading hr hweight hscope

/-! ## Ends of constructs -/

theorem exists_leave (stop : Located Stop)
    (h : bindersOf r.current + e.opening.binders.toNat < UInt32.size) :
    ∃ r', leave stop r e = .ok r' ∧ bindersOf r'.current ≤
      bindersOf r.current + e.opening.binders.toNat + bindersOf e.before := by
  unfold leave
  cases hr : r.current with
  | none =>
    refine ⟨_, rfl, ?_⟩
    show bindersOf e.before ≤ _
    omega
  | some t =>
    rw [hr] at h
    obtain ⟨u, hu⟩ : ∃ u, t.addBinders e.opening.binders = .ok u := Term.exists_addBinders h
    refine ⟨_, Checked.bind_eq_ok_iff.mpr ⟨u, hu, rfl⟩, ?_⟩
    have hbinders := (Term.addBinders_eq_ok_iff.mp hu).1
    have hadd := bindersOf_add
      { r with current := e.before, scope := r.scope.drop e.opening.binders.toNat } u
    show _ ≤ t.binders.toNat + _ + _
    omega

theorem exists_leave_innermost (hr : r.enclosures = e :: es) (hheading : r.heading = none)
    (hscope : r.scope.length = r.bound) (hweight : r.weight < UInt32.size) (stop : Located Stop) :
    e.opening.binders.toNat ≤ r.scope.length ∧
      ∃ r', leave stop { r with enclosures := es } e = .ok r' ∧ r'.heading = none ∧
        r'.scope.length = r'.bound ∧ r'.weight ≤ r.weight ∧ r'.openCount < r.openCount := by
  have hbound : r.bound = e.opening.binders.toNat + boundBy es := by
    rw [bound, hr, hheading]
    rfl
  have hall : r.weight = r.bound + (bindersOf e.before + bindersBefore es) +
      bindersOf r.current := by
    rw [weight, hr]
    rfl
  have hfits : bindersOf r.current + e.opening.binders.toNat < UInt32.size := by omega
  obtain ⟨r', hr', hcurrent⟩ := exists_leave (r := { r with enclosures := es }) stop hfits
  replace hcurrent : bindersOf r'.current ≤
      bindersOf r.current + e.opening.binders.toNat + bindersOf e.before := hcurrent
  obtain ⟨hes', hheading', hscope'⟩ := leave_changes hr'
  replace hheading' : r'.heading = none := hheading'.trans hheading
  have hbound' : r'.bound = boundBy es := by
    rw [bound, hes', hheading']
    rfl
  refine ⟨by omega, r', hr', hheading', ?_, ?_, ?_⟩
  · rw [hscope', List.length_drop, hbound']
    show r.scope.length - _ = _
    omega
  · rw [weight, hbound', hes']
    show boundBy es + bindersBefore es + _ ≤ _
    omega
  · rw [openCount, openCount, hr, hes', hheading, hheading']
    exact Nat.lt_succ_self _

end

end Reading

end WeakHead
