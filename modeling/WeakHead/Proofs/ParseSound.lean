import WeakHead.Proofs.ReadingProblems

/-!
# Soundness of parsing

As long as there are no problems, the tokens read so far fall into the
beginnings of the open constructs and the application that is current, and the
grammar derives all of these; a construct that is left becomes a part of the
one around it. This takes no bound on the length of the text.
-/

namespace WeakHead

/-- The tokens `us` are read completely as `current`, if there are any. -/
inductive Segment (c : Category) : List (Located Token) → Option Term → Prop
  | empty : Segment c [] none
  | full {us : List (Located Token)} {m : Phrase} (h : Phrased 0 c us m) (t : Term) :
    Segment c us (some t)

inductive Encloses : List (Located Token) → List Enclosure → Prop
  | nil : Encloses [] []
  | group {ts us : List (Located Token)} {es : List Enclosure} {before : Option Term}
    {p : Position} (h : Encloses ts es) (hs : Segment .application us before) :
    Encloses (ts ++ us ++ [⟨p, .opening⟩]) (⟨.group, before⟩ :: es)
  | abstraction {ts us : List (Located Token)} {es : List Enclosure} {before : Option Term}
    {n : UInt32} {p q : Position} {lambda separator : Char} {names : List (Located String)}
    (h : Encloses ts es) (hs : Segment .application us before) :
    Encloses
      (ts ++ us ++ (⟨p, .lambda lambda⟩ :: names.map Located.token ++ [⟨q, .separator separator⟩]))
      (⟨.abstraction n, before⟩ :: es)

/-- The tokens `ts` open the constructs and go on with `current`. -/
inductive Within (c : Category) (es : List Enclosure) (current : Option Term) :
    List (Located Token) → Prop
  | mk {ts us : List (Located Token)} (he : Encloses ts es) (hs : Segment c us current) :
    Within c es current (ts ++ us)

inductive Reads (r : Reading) : List (Located Token) → Prop
  | body {ts : List (Located Token)} (hr : r.heading = none)
    (h : Within .application r.enclosures r.current ts) : Reads r ts
  | heading {ts : List (Located Token)} {n : UInt32} {p : Position} {lambda : Char}
    {names : List (Located String)} (hr : r.heading = some n)
    (h : Within .application r.enclosures r.current ts) :
    Reads r (ts ++ ⟨p, .lambda lambda⟩ :: names.map Located.token)

/-! ## Readings without problems -/

namespace Reading

section
variable {r r' : Reading} {stop : Located Stop} {e : Enclosure} {es : List Enclosure}

theorem problems_report_ne (r : Reading) (position : Position) (problem : Problem) :
    (r.report position problem).problems ≠ #[] := by
  simp [report]

theorem reported_eq_self {position : Position} {problem : Problem}
    (hclean : (if r.current.isNone then r.report position problem else r).problems = #[]) :
    (if r.current.isNone then r.report position problem else r) = r := by
  by_cases hnone : r.current.isNone = true
  · rw [if_pos hnone] at hclean
    exact absurd hclean (problems_report_ne _ _ _)
  · rw [if_neg hnone]

theorem leave_eq_ok (h : leave stop r e = .ok r') (hclean : r'.problems = #[]) :
    r.problems = #[] ∧ ∃ t u, r.current = some t ∧ t.addBinders e.opening.binders = .ok u ∧
      r' = { r with
        current := e.before
        scope := r.scope.drop e.opening.binders.toNat }.add u := by
  unfold leave at h
  cases hr : r.current with
  | none =>
    rw [hr] at h
    cases h
    exact absurd hclean (problems_report_ne _ _ _)
  | some t =>
    rw [hr] at h
    obtain ⟨u, hu, h⟩ := Checked.bind_eq_ok_iff.mp h
    cases h
    rw [problems_add] at hclean
    exact ⟨hclean, t, u, rfl, hu, rfl⟩

theorem close_eq_ok {position : Position} (h : r.close position = .ok r')
    (hclean : r'.problems = #[]) :
    ∃ r₁ e es, r.leaveAbstractions ⟨position, .closing⟩ = .ok r₁ ∧ r₁.problems = #[] ∧
      r₁.enclosures = e :: es ∧
      leave ⟨position, .closing⟩ { r₁ with enclosures := es } e = .ok r' := by
  obtain ⟨r₁, h₁, h⟩ := Checked.bind_eq_ok_iff.mp h
  cases hes : r₁.enclosures with
  | nil =>
    rw [hes] at h
    cases h
    exact absurd hclean (problems_report_ne _ _ _)
  | cons e es =>
    rw [hes] at h
    exact ⟨r₁, e, es, h₁, (leave_eq_ok h hclean).1, hes, h⟩

theorem finish_eq_ok {position : Position} (h : r.finish position = .ok r')
    (hclean : r'.problems = #[]) :
    r.heading = none ∧ r.leaveAbstractions ⟨position, .endOfText⟩ = .ok r' ∧
      r'.enclosures = [] := by
  obtain ⟨r₁, h₁, h⟩ := Checked.bind_eq_ok_iff.mp h
  have hend : r₁ = r' ∧ r₁.enclosures = [] := by
    cases hes : r₁.enclosures with
    | nil =>
      rw [hes] at h
      cases Except.ok.inj h
      rw [reported_eq_self hclean]
      exact ⟨rfl, rfl⟩
    | cons e es =>
      rw [hes] at h
      obtain ⟨r₂, -, h⟩ := Checked.bind_eq_ok_iff.mp h
      obtain ⟨r₃, h₃, h⟩ := Checked.bind_eq_ok_iff.mp h
      cases Except.ok.inj h
      rw [reported_eq_self hclean] at hclean
      exact absurd ((adds_leaves h₃).problems_eq_empty hclean) (problems_report_ne _ _ _)
  obtain ⟨rfl, hes⟩ := hend
  cases hr : r.heading with
  | none =>
    rw [hr] at h₁
    exact ⟨rfl, h₁, hes⟩
  | some n =>
    rw [hr] at h₁
    exact absurd ((adds_leaveAbstractions h₁).problems_eq_empty hclean)
      (problems_report_ne _ _ _)

end

end Reading

/-! ## Parts of constructs -/

section
variable {r r' : Reading} {c : Category} {ts us : List (Located Token)} {es : List Enclosure}
  {current : Option Term} {m : Phrase} {tok : Located Token}

theorem Segment.term (h : Segment .application us current) : Segment .term us current := by
  cases h with
  | empty => exact .empty
  | full h t => exact .full (.application h) t

theorem Segment.add (h : Segment .application us r.current) (hfirst : Phrased 0 c ts m)
    (hnext : ∀ {vs func}, Phrased 0 .application vs func →
      Phrased 0 c (vs ++ ts) (.apply func m)) (t : Term) :
    Segment c (us ++ ts) (r.add t).current := by
  cases hcurrent : r.current with
  | none =>
    rw [hcurrent] at h
    cases h
    rw [Reading.add_of_current_none hcurrent]
    exact .full hfirst t
  | some func =>
    rw [hcurrent] at h
    cases h with
    | full hf =>
      rw [Reading.add_of_current_some hcurrent]
      exact .full (hnext hf) (func.apply t)

theorem Segment.add_operand (h : Segment .application us r.current) (hm : Phrased 0 .operand ts m)
    (t : Term) : Segment .application (us ++ ts) (r.add t).current :=
  h.add (.operand hm) (fun hf => .argument hf hm) t

theorem Segment.add_abstraction (h : Segment .application us r.current)
    (hm : Phrased 0 .abstraction ts m) (t : Term) : Segment .term (us ++ ts) (r.add t).current :=
  h.add (.abstraction hm) (fun hf => .lastArgument hf hm) t

theorem Encloses.within (h : Encloses ts es) : Within c es none ts := by
  have hwithin := Within.mk h (Segment.empty (c := c))
  rwa [List.append_nil] at hwithin

/-! ## Leaving constructs -/

theorem Within.leave_abstraction {e : Enclosure} {stop : Located Stop}
    (h : Within .term (e :: es) r.current ts) (he : e.opening.isAbstraction = true)
    (hleave : Reading.leave stop r e = .ok r') (hclean : r'.problems = #[]) :
    Within .term es r'.current ts ∧ r'.enclosures = r.enclosures ∧ r'.heading = r.heading := by
  obtain ⟨-, t, u, ht, hu, rfl⟩ := Reading.leave_eq_ok hleave hclean
  refine ⟨?_, by simp, by simp⟩
  rw [ht] at h
  obtain @⟨_, vs, henc, hseg⟩ := h
  cases henc with
  | group => cases he
  | @abstraction ts us es before n p q lambda separator names henc hs =>
    cases hseg with
    | @full _ m hm =>
      -- the abstraction is the last argument of what comes before it
      have habs : Phrased 0 .abstraction
          (⟨p, .lambda lambda⟩ :: names.map Located.token ++ ⟨q, .separator separator⟩ :: vs)
          (.abstraction names m) :=
        .binders (Nat.zero_le _) hm
      have hlast := hs.add_abstraction (r := { r with
        current := before
        scope := r.scope.drop n.toNat }) habs u
      have htokens : ts ++ us ++
          (⟨p, .lambda lambda⟩ :: names.map Located.token ++ [⟨q, .separator separator⟩]) ++ vs =
          ts ++ (us ++
            (⟨p, .lambda lambda⟩ :: names.map Located.token ++
              ⟨q, .separator separator⟩ :: vs)) := by
        simp
      rw [htokens]
      exact .mk henc hlast

theorem Within.leaves {inner : List Enclosure} {stop : Located Stop} {r : Reading}
    (hinner : ∀ e ∈ inner, e.opening.isAbstraction = true)
    (h : Within .term (inner ++ r.enclosures) r.current ts)
    (hleave : inner.foldlM (Reading.leave stop) r = .ok r') (hclean : r'.problems = #[]) :
    Within .term r'.enclosures r'.current ts ∧ r'.enclosures = r.enclosures ∧
      r'.heading = r.heading := by
  induction inner generalizing r with
  | nil =>
    cases hleave
    exact ⟨h, rfl, rfl⟩
  | cons e inner ih =>
    rw [List.foldlM_cons] at hleave
    obtain ⟨r₁, h₁, hrest⟩ := Checked.bind_eq_ok_iff.mp hleave
    obtain ⟨hwithin, henc, hheading⟩ := h.leave_abstraction (hinner e List.mem_cons_self) h₁
      ((Reading.adds_leaves hrest).problems_eq_empty hclean)
    rw [← henc] at hwithin
    have hend := ih (fun e he => hinner e (List.mem_cons_of_mem _ he)) hwithin hrest
    rwa [henc, hheading] at hend

theorem Within.leaveAbstractions {stop : Located Stop}
    (h : Within .application r.enclosures r.current ts)
    (hleave : r.leaveAbstractions stop = .ok r') (hclean : r'.problems = #[]) :
    Within .term r'.enclosures r'.current ts ∧ r'.heading = r.heading ∧
      ∀ e ∈ r'.enclosures.head?, e.opening.isAbstraction = false := by
  obtain ⟨he, hs⟩ := h
  have hwithin := Within.mk he hs.term
  rw [← List.takeWhile_append_dropWhile (p := fun e : Enclosure => e.opening.isAbstraction)
    (l := r.enclosures)] at hwithin
  obtain ⟨hend, henc, hheading⟩ := Within.leaves
    (r := { r with enclosures := r.enclosures.dropWhile (·.opening.isAbstraction) })
    (fun e he => List.all_eq_true.mp List.all_takeWhile e he) hwithin hleave hclean
  refine ⟨hend, hheading, ?_⟩
  intro e he
  have hnot := List.head?_dropWhile_not (·.opening.isAbstraction) r.enclosures
  rw [henc] at he
  rw [Option.mem_def.mp he] at hnot
  exact hnot

/-! ## Steps -/

theorem Within.close {p : Position} (hr : r.heading = none)
    (h : Within .application r.enclosures r.current ts) (hclose : r.close p = .ok r')
    (hclean : r'.problems = #[]) : Reads r' (ts ++ [⟨p, .closing⟩]) := by
  obtain ⟨r₁, e, es, h₁, hclean₁, hes, hleave⟩ := Reading.close_eq_ok hclose hclean
  obtain ⟨hwithin, hheading, hgroup⟩ := h.leaveAbstractions h₁ hclean₁
  obtain ⟨-, t, u, ht, hu, rfl⟩ := Reading.leave_eq_ok hleave hclean
  have ht' : r₁.current = some t := ht
  rw [hes, ht'] at hwithin
  have he : e.opening.isAbstraction = false := hgroup e (by rw [hes]; rfl)
  obtain @⟨_, vs, henc, hseg⟩ := hwithin
  cases henc with
  | abstraction => cases he
  | @group ts us es before o henc hs =>
    cases hseg with
    | @full _ m hm =>
      have hoperand : Phrased 0 .operand (⟨o, .opening⟩ :: vs ++ [⟨p, .closing⟩]) m := .group hm
      have hlast := hs.add_operand (r := { r₁ with
        current := before
        enclosures := es
        scope := r₁.scope.drop Opening.group.binders.toNat }) hoperand u
      have htokens : ts ++ us ++ [⟨o, .opening⟩] ++ vs ++ [⟨p, .closing⟩] =
          ts ++ (us ++ (⟨o, .opening⟩ :: vs ++ [⟨p, .closing⟩])) := by
        simp
      rw [htokens]
      refine .body (by simp [hheading, hr]) ?_
      rw [Reading.enclosures_add]
      exact .mk henc hlast

theorem Reads.stepHeading {n : UInt32} {p : Position} {lambda : Char}
    {names : List (Located String)} (h : Within .application r.enclosures r.current ts)
    (hstep : r.stepHeading n tok = .ok r') (hclean : r'.problems = #[]) :
    Reads r' (ts ++ ⟨p, .lambda lambda⟩ :: names.map Located.token ++ [tok]) := by
  obtain ⟨q, token⟩ := tok
  unfold Reading.stepHeading at hstep
  split at hstep
  case h_1 text htok =>
    obtain ⟨m, hm, hstep⟩ := Checked.bind_eq_ok_iff.mp hstep
    cases hstep
    cases htok
    let more : List (Located String) := names ++ [⟨q, text⟩]
    have hmore : ts ++ ⟨p, .lambda lambda⟩ :: names.map Located.token ++ [⟨q, .name text⟩] =
        ts ++ ⟨p, .lambda lambda⟩ :: more.map Located.token := by
      simp [more, Located.token]
    rw [hmore]
    exact .heading rfl h
  case h_2 separator htok =>
    cases hstep
    cases htok
    obtain @⟨ts, us, henc, hs⟩ := h
    have hentered : Encloses
        (ts ++ us ++
          (⟨p, .lambda lambda⟩ :: names.map Located.token ++ [⟨q, .separator separator⟩]))
        (⟨.abstraction n, r.current⟩ :: r.enclosures) :=
      henc.abstraction hs
    rw [List.append_assoc]
    exact .body rfl hentered.within
  case h_3 =>
    cases hstep
    exact absurd hclean (Reading.problems_report_ne _ _ _)

theorem Reads.step (h : Reads r ts) (hstep : r.step tok = .ok r') (hclean : r'.problems = #[]) :
    Reads r' (ts ++ [tok]) := by
  cases h with
  | heading hr h =>
    rw [Reading.step, hr] at hstep
    exact Reads.stepHeading h hstep hclean
  | body hr h =>
    obtain ⟨p, token⟩ := tok
    cases token with
    | name text =>
      rw [show (⟨p, .name text⟩ : Located Token) = Located.token ⟨p, text⟩ from rfl,
        Reading.step_name hr] at hstep
      cases hstep
      unfold Reading.addName at hclean ⊢
      cases hindex : r.scope.idxOf? text with
      | none =>
        rw [hindex, Reading.problems_add] at hclean
        exact absurd hclean (Reading.problems_report_ne _ _ _)
      | some index =>
        obtain ⟨henc, hs⟩ := h
        refine .body (by simp [hr]) ?_
        rw [Reading.enclosures_add, List.append_assoc]
        exact .mk henc (hs.add_operand (@Phrased.name 0 ⟨p, text⟩) _)
    | lambda sign =>
      rw [Reading.step_lambda hr] at hstep
      cases hstep
      have hheading : ts ++ [(⟨p, .lambda sign⟩ : Located Token)] =
        ts ++ ⟨p, .lambda sign⟩ :: [].map Located.token := rfl
      rw [hheading]
      exact .heading rfl h
    | opening =>
      rw [Reading.step_opening hr] at hstep
      cases hstep
      obtain ⟨henc, hs⟩ := h
      exact .body rfl (henc.group hs).within
    | closing =>
      rw [Reading.step_closing hr] at hstep
      exact h.close hr hstep hclean
    | separator sign =>
      rw [Reading.step_stray hr] at hstep
      cases hstep
      exact absurd hclean (Reading.problems_report_ne _ _ _)

theorem reads_of_foldlM (h : ts.foldlM Reading.step .start = .ok r) (hclean : r.problems = #[]) :
    Reads r ts := by
  -- a reading with problems later on had none before, so each step starts from a clean one
  have hrun : ∀ {ts us : List (Located Token)} {r₀ : Reading},
      (r₀.problems = #[] → Reads r₀ us) → ts.foldlM Reading.step r₀ = .ok r →
      Reads r (us ++ ts) := by
    intro ts
    induction ts with
    | nil =>
      intro us r₀ h₀ h
      cases h
      rw [List.append_nil]
      exact h₀ hclean
    | cons tok ts ih =>
      intro us r₀ h₀ h
      rw [List.foldlM_cons] at h
      obtain ⟨r₁, h₁, h⟩ := Checked.bind_eq_ok_iff.mp h
      have hstep : r₁.problems = #[] → Reads r₁ (us ++ [tok]) := by
        intro hclean₁
        exact (h₀ ((Reading.adds_step h₁).problems_eq_empty hclean₁)).step h₁ hclean₁
      have hrest := ih hstep h
      rwa [List.append_assoc] at hrest
  exact hrun (fun _ => .body rfl Encloses.nil.within) h

theorem Reads.finish {position : Position} {t : Term} (h : Reads r ts)
    (hfinish : r.finish position = .ok r') (hclean : r'.problems = #[])
    (hcurrent : r'.current = some t) : ∃ m, Phrased 0 .term ts m := by
  obtain ⟨hr, hleave, hes⟩ := Reading.finish_eq_ok hfinish hclean
  cases h with
  | heading hr' => rw [hr] at hr'; cases hr'
  | body _ h =>
    obtain ⟨hwithin, -, -⟩ := h.leaveAbstractions hleave hclean
    rw [hes, hcurrent] at hwithin
    obtain ⟨henc, hs⟩ := hwithin
    cases henc
    cases hs with
    | full hm => exact ⟨_, hm⟩

end

end WeakHead
