import WeakHead.Proofs.Brackets
import WeakHead.Proofs.InvalidCharacters

/-!
# Problems with parentheses

Among the constructs that are open, abstractions stand between the groups, and
a parenthesis may be lost in a list of binders. Still a `)` is reported exactly
if it closes no `(` outside of lists of binders, and the end of the text exactly
if it leaves such a `(` open.
-/

namespace WeakHead

def Token.isName : Token → Bool
  | .name _ => true
  | _ => false

def Token.isLambda : Token → Bool
  | .lambda _ => true
  | _ => false

def bracketOf (t : Located Token) : Option Bracket :=
  match t.value with
  | .opening => some .opening
  | .closing => some .closing
  | _ => none

/-- What is behind a list of binders, from some place in it: it has names, and one more token that
ends it. -/
def behindBinders (ts : List (Located Token)) : List (Located Token) :=
  (ts.dropWhile (·.value.isName)).drop 1

theorem length_behindBinders_le (ts : List (Located Token)) :
    (behindBinders ts).length ≤ ts.length :=
  ((List.drop_sublist _ _).trans (List.dropWhile_sublist _)).length_le

/-- The tokens that are neither a lambda nor in the list of binders behind one. -/
def outsideBinders : List (Located Token) → List (Located Token)
  | [] => []
  | t :: ts =>
    if t.value.isLambda then outsideBinders (behindBinders ts) else t :: outsideBinders ts
termination_by ts => ts.length
decreasing_by
  · exact Nat.lt_succ_of_le (length_behindBinders_le ts)
  · exact Nat.lt_succ_self _

def diagnosticsOf : Except Report Term → List Diagnostic
  | .ok _ => []
  | .error report => report.diagnostics

def omittedOf : Except Report Term → Nat
  | .ok _ => 0
  | .error report => report.omitted

theorem outsideBinders_nil : outsideBinders [] = [] := by rw [outsideBinders]

theorem outsideBinders_cons (t : Located Token) (ts : List (Located Token)) :
    outsideBinders (t :: ts) =
      if t.value.isLambda then outsideBinders (behindBinders ts) else t :: outsideBinders ts := by
  rw [outsideBinders]

theorem outsideBinders_sublist (ts : List (Located Token)) : (outsideBinders ts).Sublist ts := by
  fun_induction outsideBinders ts with
  | case1 => exact List.Sublist.refl _
  | case2 t ts ht ih =>
    exact (ih.trans ((List.drop_sublist _ _).trans (List.dropWhile_sublist _))).cons t
  | case3 t ts ht ih => exact ih.cons_cons t

def Problem.isAboutBrackets : Problem → Bool
  | .unmatchedClosing => true
  | .unclosedGroup => true
  | _ => false

theorem Problem.isAboutBrackets_iff {problem : Problem} :
    problem.isAboutBrackets = true ↔ problem = .unmatchedClosing ∨ problem = .unclosedGroup := by
  cases problem <;> simp [isAboutBrackets]

namespace Reading

def places (problem : Problem) (r : Reading) : List Position :=
  positions (r.problems.toList.filter (·.value = problem))

def openGroups (r : Reading) : Nat := r.enclosures.countP fun e => !e.opening.isAbstraction

/-- Reading on through these tokens, the groups that are open have been opened and closed by
brackets, and the loose ones are reported. -/
structure Tracks (ts : List (Located Token)) (r r' : Reading) : Prop where
  openGroups_eq : r'.openGroups = ts.foldl (openBehind bracketOf) r.openGroups
  unmatched_eq : r'.places .unmatchedClosing =
    r.places .unmatchedClosing ++ positions (looseClosings bracketOf r.openGroups ts)
  unclosed_eq : r'.places .unclosedGroup = r.places .unclosedGroup

def outsideRest (r : Reading) (ts : List (Located Token)) : List (Located Token) :=
  if r.heading.isNone then outsideBinders ts else outsideBinders (behindBinders ts)

section
variable {r r' r'' : Reading} {p : Position} {stop : Located Stop} {e : Enclosure}
  {es : List Enclosure} {t : Located Token} {ts us : List (Located Token)} {problem : Problem}

theorem places_report (r : Reading) (p : Position) (found : Problem) :
    (r.report p found).places problem =
      r.places problem ++ if found = problem then [p] else [] := by
  unfold places positions report
  by_cases h : found = problem <;> simp [h]

theorem places_of_eq (h : r'.problems = r.problems) : r'.places problem = r.places problem := by
  rw [places, h, places]

theorem places_report_other {found : Problem} (problem : Problem)
    (hproblem : problem.isAboutBrackets = true) (hfound : found.isAboutBrackets = false)
    (r : Reading) (p : Position) : (r.report p found).places problem = r.places problem := by
  have hne : found ≠ problem := by
    rintro rfl
    rw [hproblem] at hfound
    cases hfound
  rw [places_report, if_neg hne, List.append_nil]

theorem places_demand (problem : Problem) (hproblem : problem.isAboutBrackets = true)
    (stop : Located Stop) (r : Reading) : (r.demand stop).places problem = r.places problem := by
  unfold demand
  split
  · exact places_report_other problem hproblem rfl r _
  · rfl

/-! ## Ends of constructs -/

theorem places_leave (problem : Problem) (hproblem : problem.isAboutBrackets = true)
    (h : leave stop r e = .ok r') : r'.places problem = r.places problem := by
  unfold leave at h
  cases hr : r.current with
  | none =>
    rw [hr] at h
    cases h
    rw [places_report_other problem hproblem rfl]
    exact places_of_eq rfl
  | some t =>
    rw [hr] at h
    obtain ⟨u, -, h⟩ := Checked.bind_eq_ok_iff.mp h
    cases h
    exact places_of_eq (problems_add _ _)

theorem places_leaves (problem : Problem) (hproblem : problem.isAboutBrackets = true)
    (h : es.foldlM (leave stop) r = .ok r') : r'.places problem = r.places problem :=
  Checked.foldlM_inv (I := fun s => s.places problem = r.places problem)
    (fun _ _ _ _ hs hleave => (places_leave problem hproblem hleave).trans hs) rfl h

theorem leaves_changes (h : es.foldlM (leave stop) r = .ok r') :
    r'.enclosures = r.enclosures ∧ r'.heading = r.heading := by
  refine Checked.foldlM_inv (I := fun s => s.enclosures = r.enclosures ∧ s.heading = r.heading)
    ?_ ⟨rfl, rfl⟩ h
  rintro e - s s' ⟨henclosures, hheading⟩ hleave
  obtain ⟨henclosures', hheading', -⟩ := leave_changes hleave
  exact ⟨henclosures'.trans henclosures, hheading'.trans hheading⟩

theorem leaveAbstractions_changes (h : r.leaveAbstractions stop = .ok r') :
    r'.enclosures = r.enclosures.dropWhile (·.opening.isAbstraction) ∧
      r'.heading = r.heading := by
  dsimp only [leaveAbstractions] at h
  exact leaves_changes h

theorem places_leaveAbstractions (problem : Problem) (hproblem : problem.isAboutBrackets = true)
    (h : r.leaveAbstractions stop = .ok r') : r'.places problem = r.places problem := by
  dsimp only [leaveAbstractions] at h
  exact (places_leaves problem hproblem h).trans (places_of_eq rfl)

theorem openGroups_leaveAbstractions (h : r.leaveAbstractions stop = .ok r') :
    r'.openGroups = r.openGroups := by
  have hinner : (r.enclosures.takeWhile (·.opening.isAbstraction)).countP
      (fun e => !e.opening.isAbstraction) = 0 := by
    rw [List.countP_eq_zero]
    intro e he
    simp [List.all_eq_true.mp List.all_takeWhile e he]
  have hsplit := List.takeWhile_append_dropWhile (p := (·.opening.isAbstraction))
    (l := r.enclosures)
  rw [openGroups, openGroups, (leaveAbstractions_changes h).1, ← hsplit, List.countP_append,
    hinner, hsplit, Nat.zero_add]

theorem openGroups_of_leaveAbstractions_nil (h : r.leaveAbstractions stop = .ok r')
    (hr' : r'.enclosures = []) : r.openGroups = 0 := by
  rw [← openGroups_leaveAbstractions h, openGroups, hr', List.countP_nil]

theorem openGroups_of_leaveAbstractions_cons (h : r.leaveAbstractions stop = .ok r')
    (hr' : r'.enclosures = e :: es) :
    r.openGroups = es.countP (fun e => !e.opening.isAbstraction) + 1 := by
  have hhead := List.head?_dropWhile_not (·.opening.isAbstraction) r.enclosures
  rw [← (leaveAbstractions_changes h).1, hr'] at hhead
  have hgroup : (!e.opening.isAbstraction) = true := by simpa using hhead
  rw [← openGroups_leaveAbstractions h, openGroups, hr']
  exact List.countP_cons_of_pos hgroup

theorem enclosures_demand (stop : Located Stop) (r : Reading) :
    (r.demand stop).enclosures = r.enclosures := by
  unfold demand
  split <;> rfl

theorem heading_demand (stop : Located Stop) (r : Reading) :
    (r.demand stop).heading = r.heading := by
  unfold demand
  split <;> rfl

theorem heading_close (h : r.close p = .ok r') : r'.heading = r.heading := by
  obtain ⟨r₁, h₁, h⟩ := Checked.bind_eq_ok_iff.mp h
  rw [← (leaveAbstractions_changes h₁).2]
  cases hes : r₁.enclosures with
  | nil =>
    rw [hes] at h
    cases h
    exact heading_demand ⟨p, .closing⟩ r₁
  | cons e es =>
    rw [hes] at h
    dsimp only at h
    exact (leave_changes h).2.1

theorem tracks_close (ht : t.value = .closing) (h : r.close t.position = .ok r') :
    r.Tracks [t] r' := by
  have hbracket : bracketOf t = some .closing := by rw [bracketOf, ht]
  obtain ⟨r₁, h₁, h⟩ := Checked.bind_eq_ok_iff.mp h
  have hunmatched := places_leaveAbstractions .unmatchedClosing rfl h₁
  have hunclosed := places_leaveAbstractions .unclosedGroup rfl h₁
  cases hes : r₁.enclosures with
  | nil =>
    have hopen := openGroups_of_leaveAbstractions_nil h₁ hes
    have hr' : (r₁.demand ⟨t.position, .closing⟩).report t.position .unmatchedClosing = r' := by
      rw [hes] at h
      exact Except.ok.inj h
    refine ⟨?_, ?_, ?_⟩
    · rw [← hr', List.foldl_cons, openBehind_closing hbracket, hopen]
      show (r₁.demand _).enclosures.countP _ = 0
      rw [enclosures_demand, hes, List.countP_nil]
    · rw [← hr', places_report, places_demand .unmatchedClosing rfl, hunmatched, if_pos rfl,
        hopen, looseClosings, if_pos ⟨hbracket, rfl⟩]
      rfl
    · rw [← hr', places_report, places_demand .unclosedGroup rfl, hunclosed,
        if_neg (by decide), List.append_nil]
  | cons e es =>
    have hopen := openGroups_of_leaveAbstractions_cons h₁ hes
    rw [hes] at h
    dsimp only at h
    refine ⟨?_, ?_, ?_⟩
    · rw [List.foldl_cons, openBehind_closing hbracket, hopen, openGroups, (leave_changes h).1]
      rfl
    · have hsome : ¬ (bracketOf t = some .closing ∧ r.openGroups = 0) := by
        rw [hopen]
        exact fun hzero => Nat.succ_ne_zero _ hzero.2
      rw [looseClosings, if_neg hsome]
      exact ((places_leave .unmatchedClosing rfl h).trans hunmatched).trans
        (List.append_nil _).symm
    · exact (places_leave .unclosedGroup rfl h).trans hunclosed

/-! ## Tokens -/

theorem Tracks.trans (h : r.Tracks ts r') (h' : r'.Tracks us r'') : r.Tracks (ts ++ us) r'' where
  openGroups_eq := by rw [h'.openGroups_eq, h.openGroups_eq, List.foldl_append]
  unmatched_eq := by
    rw [h'.unmatched_eq, h.unmatched_eq, h.openGroups_eq, looseClosings_append, positions,
      positions, positions, List.map_append, List.append_assoc]
  unclosed_eq := h'.unclosed_eq.trans h.unclosed_eq

theorem tracks_nil (hgroups : r'.openGroups = r.openGroups)
    (hunmatched : r'.places .unmatchedClosing = r.places .unmatchedClosing)
    (hunclosed : r'.places .unclosedGroup = r.places .unclosedGroup) : r.Tracks [] r' :=
  ⟨hgroups, hunmatched.trans (List.append_nil _).symm, hunclosed⟩

theorem tracks_self (r : Reading) : r.Tracks [] r := tracks_nil rfl rfl rfl

theorem Tracks.other (h : r.Tracks [] r') (ht : bracketOf t = none) : r.Tracks [t] r' where
  openGroups_eq := by
    rw [List.foldl_cons, openBehind_other ht]
    exact h.openGroups_eq
  unmatched_eq := by
    rw [looseClosings, ht]
    exact h.unmatched_eq
  unclosed_eq := h.unclosed_eq

theorem tracks_report (hproblem : problem.isAboutBrackets = false) (r : Reading) (p : Position) :
    r.Tracks [] (r.report p problem) :=
  tracks_nil rfl (places_report_other .unmatchedClosing rfl hproblem r p)
    (places_report_other .unclosedGroup rfl hproblem r p)

theorem tracks_add (r : Reading) (u : Term) : r.Tracks [] (r.add u) :=
  tracks_nil (by rw [openGroups, enclosures_add, openGroups]) (places_of_eq (problems_add _ _))
    (places_of_eq (problems_add _ _))

theorem tracks_enter_abstraction (r : Reading) (n : UInt32) :
    r.Tracks [] (r.enter (.abstraction n)) :=
  tracks_nil (List.countP_cons_of_neg (by simp [Opening.isAbstraction])) rfl rfl

theorem tracks_enter_group (ht : t.value = .opening) (r : Reading) :
    r.Tracks [t] (r.enter .group) := by
  have hbracket : bracketOf t = some .opening := by rw [bracketOf, ht]
  refine ⟨?_, ?_, rfl⟩
  · rw [List.foldl_cons, openBehind_opening hbracket]
    exact List.countP_cons_of_pos rfl
  · rw [looseClosings, hbracket]
    exact (List.append_nil _).symm

theorem tracks_addName (r : Reading) (p : Position) (name : String) :
    r.Tracks [] (r.addName p name) := by
  unfold addName
  split
  · exact tracks_add _ _
  · exact (tracks_report (by rfl) r p).trans (tracks_add _ _)

theorem tracks_step_of_body (hr : r.heading = none) (h : r.step t = .ok r') :
    r.Tracks (if t.value.isLambda then [] else [t]) r' ∧
      r'.heading.isNone = !t.value.isLambda := by
  obtain ⟨p, token⟩ := t
  rw [step, hr] at h
  cases token with
  | name text =>
    cases h
    refine ⟨(tracks_addName r p text).other rfl, ?_⟩
    show (r.addName p text).heading.isNone = true
    unfold addName
    split <;> simp [hr, report]
  | lambda sign =>
    cases h
    exact ⟨tracks_nil rfl rfl rfl, rfl⟩
  | opening =>
    cases h
    exact ⟨tracks_enter_group rfl r, rfl⟩
  | closing =>
    refine ⟨tracks_close rfl h, ?_⟩
    rw [heading_close h, hr]
    rfl
  | separator sign =>
    cases h
    refine ⟨(tracks_report (by rfl) r p).other rfl, ?_⟩
    show r.heading.isNone = true
    rw [hr]
    rfl

theorem tracks_step_of_heading {n : UInt32} (hr : r.heading = some n) (h : r.step t = .ok r') :
    r.Tracks [] r' ∧ r'.heading.isNone = !t.value.isName := by
  have hbroken : ∀ token, r.Tracks []
      ((r.report t.position (.brokenBinders token)).enter (.abstraction n)) :=
    fun token => (tracks_report (by rfl) r t.position).trans (tracks_enter_abstraction _ n)
  rw [step, hr] at h
  obtain ⟨p, token⟩ := t
  cases token with
  | name text =>
    obtain ⟨m, -, h⟩ := Checked.bind_eq_ok_iff.mp h
    cases h
    exact ⟨tracks_nil rfl rfl rfl, rfl⟩
  | separator sign =>
    cases h
    exact ⟨tracks_enter_abstraction r n, rfl⟩
  | lambda sign =>
    cases h
    exact ⟨hbroken _, rfl⟩
  | opening =>
    cases h
    exact ⟨hbroken _, rfl⟩
  | closing =>
    cases h
    exact ⟨hbroken _, rfl⟩

theorem tracks_foldlM (h : ts.foldlM step r = .ok r') : r.Tracks (r.outsideRest ts) r' := by
  induction ts generalizing r with
  | nil =>
    cases h
    have hnil : r'.outsideRest [] = [] := by
      unfold outsideRest
      split <;> exact outsideBinders_nil
    rw [hnil]
    exact tracks_self r'
  | cons t ts ih =>
    rw [List.foldlM_cons] at h
    obtain ⟨r₁, h₁, h⟩ := Checked.bind_eq_ok_iff.mp h
    have hrest := ih h
    unfold outsideRest at hrest ⊢
    cases hr : r.heading with
    | none =>
      obtain ⟨htracks, hheading⟩ := tracks_step_of_body hr h₁
      rw [hheading] at hrest
      rw [Option.isNone_none, if_pos rfl, outsideBinders_cons]
      cases hlambda : t.value.isLambda with
      | true =>
        rw [hlambda] at htracks hrest
        exact htracks.trans hrest
      | false =>
        rw [hlambda] at htracks hrest
        exact htracks.trans hrest
    | some n =>
      obtain ⟨htracks, hheading⟩ := tracks_step_of_heading hr h₁
      rw [hheading] at hrest
      rw [Option.isNone_some, if_neg Bool.false_ne_true]
      unfold behindBinders at hrest ⊢
      cases hname : t.value.isName with
      | true =>
        rw [hname] at hrest
        rw [List.dropWhile_cons_of_pos (by exact hname)]
        exact htracks.trans hrest
      | false =>
        rw [hname] at hrest
        rw [List.dropWhile_cons_of_neg (by simp [hname])]
        exact htracks.trans hrest

/-! ## The end of the text -/

theorem places_finish_of_body (hr : r.heading = none) (h : r.finish p = .ok r') :
    r'.places .unmatchedClosing = r.places .unmatchedClosing ∧ r'.places .unclosedGroup =
      r.places .unclosedGroup ++ if r.openGroups = 0 then [] else [p] := by
  obtain ⟨r₁, h₁, h⟩ := Checked.bind_eq_ok_iff.mp h
  rw [hr] at h₁
  have hunmatched := places_leaveAbstractions .unmatchedClosing rfl h₁
  have hunclosed := places_leaveAbstractions .unclosedGroup rfl h₁
  cases hes : r₁.enclosures with
  | nil =>
    have hopen := openGroups_of_leaveAbstractions_nil h₁ hes
    have hr' : r₁.demand ⟨p, .endOfText⟩ = r' := by
      rw [hes] at h
      exact Except.ok.inj h
    rw [← hr', places_demand .unmatchedClosing rfl, places_demand .unclosedGroup rfl,
      if_pos hopen, List.append_nil]
    exact ⟨hunmatched, hunclosed⟩
  | cons e es =>
    have hopen : r.openGroups ≠ 0 := by
      rw [openGroups_of_leaveAbstractions_cons h₁ hes]
      exact Nat.succ_ne_zero _
    rw [hes] at h
    obtain ⟨r₂, h₂, h⟩ := Checked.bind_eq_ok_iff.mp h
    obtain ⟨r₃, h₃, h⟩ := Checked.bind_eq_ok_iff.mp h
    have hr' : r₃.demand ⟨p, .endOfText⟩ = r' := Except.ok.inj h
    have hplaces : ∀ problem : Problem, problem.isAboutBrackets = true → r'.places problem =
        r₁.places problem ++ if .unclosedGroup = problem then [p] else [] := by
      intro problem hproblem
      rw [← hr', places_demand problem hproblem, places_leaves problem hproblem h₃,
        places_report, places_leave problem hproblem h₂]
      rfl
    rw [hplaces .unmatchedClosing rfl, hplaces .unclosedGroup rfl, hunmatched, hunclosed,
      if_neg (by decide), if_pos rfl, if_neg hopen, List.append_nil]
    exact ⟨rfl, rfl⟩

theorem places_finish (h : r.finish p = .ok r') :
    r'.places .unmatchedClosing = r.places .unmatchedClosing ∧ r'.places .unclosedGroup =
      r.places .unclosedGroup ++ if r.openGroups = 0 then [] else [p] := by
  cases hr : r.heading with
  | none => exact places_finish_of_body hr h
  | some n =>
    rw [finish_of_heading hr] at h
    have hbroken : r.Tracks [] ((r.report p (.brokenBinders none)).enter (.abstraction n)) :=
      (tracks_report (by rfl) r p).trans (tracks_enter_abstraction _ n)
    have hopen : _ = r.openGroups := hbroken.openGroups_eq
    have hunmatched := hbroken.unmatched_eq.trans (List.append_nil _)
    have hend := places_finish_of_body rfl h
    rwa [hopen, hunmatched, hbroken.unclosed_eq] at hend

end

end Reading

/-! ## The report -/

namespace Problem

theorem message_unmatchedClosing :
    message .unmatchedClosing = "Unexpected ')', there is no corresponding '('" := rfl

theorem message_unclosedGroup : message .unclosedGroup = "Unclosed parenthesis" := rfl

theorem message_eq_iff {found problem : Problem} (hproblem : problem.isAboutBrackets = true) :
    found.message = problem.message ↔ found = problem := by
  refine ⟨fun h => ?_, congrArg message⟩
  have hchars := congrArg String.toList h
  replace hproblem := isAboutBrackets_iff.mp hproblem
  cases found with
  | unknownName name =>
    rw [message_unknownName] at hchars
    rcases hproblem with rfl | rfl
    · simp [message_unmatchedClosing] at hchars
    · simp [message_unclosedGroup] at hchars
  | strayToken token =>
    rw [message_strayToken] at hchars
    rcases hproblem with rfl | rfl
    · simp [message_unmatchedClosing] at hchars
    · simp [message_unclosedGroup] at hchars
  | brokenBinders found =>
    cases found with
    | none => rcases hproblem with rfl | rfl <;> exact absurd h (by decide)
    | some token =>
      rw [message_brokenBinders] at hchars
      rcases hproblem with rfl | rfl
      · simp [message_unmatchedClosing] at hchars
      · simp [message_unclosedGroup] at hchars
  | missingTerm stop =>
    cases stop <;> rcases hproblem with rfl | rfl <;> exact absurd h (by decide)
  | invalidCharacter => rcases hproblem with rfl | rfl <;> exact absurd h (by decide)
  | unmatchedClosing =>
    rcases hproblem with rfl | rfl
    · rfl
    · exact absurd h (by decide)
  | unclosedGroup =>
    rcases hproblem with rfl | rfl
    · exact absurd h (by decide)
    · rfl

end Problem

section
variable {file source : String}

theorem filter_diagnostics (problem : Problem) (hproblem : problem.isAboutBrackets = true)
    (file : String) (problems : List (Located Problem)) :
    (problems.map (Diagnostic.ofProblem file)).filter (·.message = problem.message) =
      (positions (problems.filter (·.value = problem))).map (⟨file, ·, problem.message⟩) := by
  induction problems with
  | nil => rfl
  | cons q qs ih =>
    have hq : (Diagnostic.ofProblem file q).message = problem.message ↔ q.value = problem :=
      Problem.message_eq_iff hproblem
    rw [List.map_cons, List.filter_cons, List.filter_cons, ih]
    by_cases h : q.value = problem
    · simp [h, positions, Diagnostic.ofProblem]
    · simp [h, mt hq.mp h]

theorem Tells.exists_result {told : List Diagnostic} (h : Tells file source told) :
    ∃ result, parse file source = .ok result ∧
      (omittedOf result = 0 → diagnosticsOf result = told) := by
  by_cases hne : told = []
  · obtain ⟨t, ht⟩ := h.1 hne
    exact ⟨_, ht, fun _ => hne.symm⟩
  · refine ⟨_, h.2 hne, fun homitted => ?_⟩
    exact List.take_of_length_le (Nat.le_of_sub_eq_zero homitted)

theorem exists_bracket_problems (file : String)
    (hsize : source.utf8ByteSize < UInt32.size - 1) :
    let ts := outsideBinders (Scan.ofString source).tokens.toList
    ∃ problems : List (Located Problem), Tells file source (problems.map (.ofProblem file)) ∧
      positions (problems.filter (·.value = .unmatchedClosing)) =
        positions (looseClosings bracketOf 0 ts) ∧
      positions (problems.filter (·.value = .unclosedGroup)) =
        if ts.foldl (openBehind bracketOf) 0 = 0 then [] else [.behind source.toList] := by
  intro ts
  obtain ⟨final, -, hexamine, -⟩ := exists_examine hsize
  obtain ⟨r, r', hr, hr', hproblems, -⟩ := examine_eq_ok_iff.mp hexamine
  have htracks : Reading.Tracks ts .start r := Reading.tracks_foldlM hr
  obtain ⟨hunmatched, hunclosed⟩ := Reading.places_finish hr'
  have hopen : r.openGroups = ts.foldl (openBehind bracketOf) 0 := htracks.openGroups_eq
  rw [htracks.unmatched_eq] at hunmatched
  rw [htracks.unclosed_eq, hopen, Scan.position_ofString] at hunclosed
  have hfound : ∀ problem : Problem, problem.isAboutBrackets = true →
      positions (((Scan.ofString source).invalid.toList.map
        (⟨·, .invalidCharacter⟩ : Position → Located Problem) ++ r'.problems.toList).filter
          (·.value = problem)) = r'.places problem := by
    intro problem hproblem
    have hne : Problem.invalidCharacter ≠ problem := by
      rintro rfl
      cases hproblem
    rw [List.filter_append, List.filter_eq_nil_iff.mpr (by simp [hne]), List.nil_append]
    rfl
  rw [hproblems] at hexamine
  refine ⟨_, tells_of_examine hsize hexamine, ?_, ?_⟩
  · exact (hfound .unmatchedClosing rfl).trans hunmatched
  · exact (hfound .unclosedGroup rfl).trans hunclosed

/-- A `)` is reported exactly if it belongs to no `(`, and the end of the text exactly if some `(`
belongs to no `)`. Lists of binders have no brackets. -/
theorem bracket_problems_match (file source : String)
    (hsize : source.utf8ByteSize < UInt32.size - 1) :
    ∃ ts result, Spells .start (source.toList.map blankInvalid) ts ∧
      parse file source = .ok result ∧
      (omittedOf result = 0 →
        (∃ closings : List Position, closings.Pairwise (· < ·) ∧
          (∀ p, p ∈ closings ↔
            ∃ t, IsLooseClosing bracketOf (outsideBinders ts) t ∧ t.position = p) ∧
          (diagnosticsOf result).filter
              (·.message = "Unexpected ')', there is no corresponding '('") =
            closings.map (⟨file, ·, "Unexpected ')', there is no corresponding '('"⟩)) ∧
        ((∃ t, IsLooseOpening bracketOf (outsideBinders ts) t) →
          (diagnosticsOf result).filter (·.message = "Unclosed parenthesis") =
            [⟨file, .behind source.toList, "Unclosed parenthesis"⟩]) ∧
        ((¬ ∃ t, IsLooseOpening bracketOf (outsideBinders ts) t) →
          (diagnosticsOf result).filter (·.message = "Unclosed parenthesis") = [])) := by
  obtain ⟨problems, htells, hunmatched, hunclosed⟩ := exists_bracket_problems file hsize
  obtain ⟨result, hresult, hall⟩ := htells.exists_result
  refine ⟨_, result, Scan.spells_tokens source, hresult, fun homitted => ?_⟩
  have hclosings := filter_diagnostics .unmatchedClosing rfl file problems
  have hopenings := filter_diagnostics .unclosedGroup rfl file problems
  rw [hall homitted]
  rw [hunmatched] at hclosings
  rw [hunclosed] at hopenings
  refine ⟨⟨_, ?_, ?_, hclosings⟩, ?_, ?_⟩
  · have houtside := outsideBinders_sublist (Scan.ofString source).tokens.toList
    have hloose : (looseClosings bracketOf 0 _).Sublist _ :=
      (looseClosings_sublist 0 _).trans houtside
    exact (Scan.marks_tokens source).pairwise.sublist (hloose.map Located.position)
  · intro p
    simp only [isLooseClosing_iff]
    exact List.mem_map
  · intro hopen
    rw [if_neg (exists_isLooseOpening_iff.mp hopen)] at hopenings
    exact hopenings
  · intro hopen
    rw [if_pos (Decidable.of_not_not (mt exists_isLooseOpening_iff.mpr hopen))] at hopenings
    exact hopenings

end

theorem bracket_problems_match_lost :
    "a) \\x ( y) (z".utf8ByteSize < UInt32.size - 1 ∧
      ∃ ts result, Spells .start ("a) \\x ( y) (z".toList.map blankInvalid) ts ∧
        parse "lost" "a) \\x ( y) (z" = .ok result ∧ omittedOf result = 0 ∧
        (∀ p, p ∈ [⟨1, 2⟩, ⟨1, 10⟩] ↔
          ∃ t, IsLooseClosing bracketOf (outsideBinders ts) t ∧ t.position = p) ∧
        (∃ t, IsLooseOpening bracketOf (outsideBinders ts) t) ∧
        (diagnosticsOf result).filter (·.message = "Unclosed parenthesis") =
          [⟨"lost", ⟨1, 14⟩, "Unclosed parenthesis"⟩] := by
  -- the first `(` is lost in a list of binders, so the second `)` is loose, as is the last `(`
  have hsize : "a) \\x ( y) (z".utf8ByteSize < UInt32.size - 1 := by decide
  obtain ⟨ts, result, hts, hresult, hproblems⟩ := bracket_problems_match "lost" _ hsize
  have hparse : parse "lost" "a) \\x ( y) (z" = .ok (.error ⟨[
      ⟨"lost", ⟨1, 1⟩, "Unknown identifier 'a'"⟩,
      ⟨"lost", ⟨1, 2⟩, "Unexpected ')', there is no corresponding '('"⟩,
      ⟨"lost", ⟨1, 7⟩, "Unexpected token '(', expected identifier or '.'"⟩,
      ⟨"lost", ⟨1, 9⟩, "Unknown identifier 'y'"⟩,
      ⟨"lost", ⟨1, 10⟩, "Unexpected ')', there is no corresponding '('"⟩,
      ⟨"lost", ⟨1, 13⟩, "Unknown identifier 'z'"⟩,
      ⟨"lost", ⟨1, 14⟩, "Unclosed parenthesis"⟩], 0⟩) := rfl
  rw [hparse] at hresult
  cases hresult
  obtain ⟨⟨closings, -, hclosings, hreported⟩, hopen, hnone⟩ := hproblems rfl
  have hplaces : [⟨1, 2⟩, ⟨1, 10⟩] = closings := by
    have hmap := congrArg (List.map (·.position)) hreported
    rw [List.map_map] at hmap
    exact hmap.trans (List.map_id closings)
  have hloose : ∃ t, IsLooseOpening bracketOf (outsideBinders ts) t :=
    Classical.byContradiction fun h => List.cons_ne_nil _ _ (hnone h)
  exact ⟨hsize, ts, _, hts, hparse, rfl, hplaces ▸ hclosings, hloose, hopen hloose⟩

end WeakHead
