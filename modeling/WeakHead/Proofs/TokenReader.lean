import WeakHead.Proofs.BinderCounts
import WeakHead.Proofs.Parsing
import WeakHead.Proofs.Places

/-!
# Reading turn by turn

The reader looks at one token after the other by its index. In a turn it takes
the token, or it ends one open construct and looks at the same token again;
behind the last token it ends what is open, one construct after the other. A
turn has no result if there is nothing at the index, if more names go out of
scope than are in it, or if a word cannot count the binders of a term.

None of this happens to a text that a word can count. Every turn leaves the
reader with fewer tokens or fewer open constructs, so that it comes to an end,
with what the reading of all tokens comes to.
-/

namespace WeakHead

structure TokenReader where
  index : Nat
  reading : Reading
  saidUnclosed : Bool

namespace TokenReader

def start : TokenReader := ⟨0, .start, false⟩

def sight (scan : Scan) (index : Nat) : Option (Located (Option Token)) :=
  if index = scan.tokens.size then some ⟨scan.position, none⟩
  else scan.tokens[index]?.map fun t => ⟨t.position, some t.value⟩

def leave (stop : Located Stop) (r : Reading) (e : Enclosure) : Option Reading :=
  if e.opening.binders.toNat ≤ r.scope.length then (Reading.leave stop r e).toOption else none

def unwind (s : TokenReader) (stop : Located Stop) : Option (TokenReader ⊕ Reading) :=
  match s.reading.enclosures with
  | e :: outer => do
    let r ← leave stop { s.reading with enclosures := outer } e
    match e.opening, stop.value with
    | .abstraction _, _ => return .inl { s with reading := r }
    | .group, .closing => return .inl { s with index := s.index + 1, reading := r }
    | .group, .endOfText =>
      if s.saidUnclosed then return .inl { s with reading := r }
      else return .inl ⟨s.index, r.report stop.position .unclosedGroup, true⟩
  | [] =>
    let r := s.reading.demand stop
    match stop.value with
    | .closing =>
      let r := r.report stop.position .unmatchedClosing
      some (.inl { s with index := s.index + 1, reading := r })
    | .endOfText => some (.inr r)

/-- One turn, with the reader after it or, at the end, with what has been read. -/
def turn (scan : Scan) (s : TokenReader) : Option (TokenReader ⊕ Reading) := do
  let here ← sight scan s.index
  match s.reading.heading, here.value with
  | none, none => s.unwind ⟨here.position, .endOfText⟩
  | none, some .closing => s.unwind ⟨here.position, .closing⟩
  | some n, none =>
    let r := s.reading.report here.position (.brokenBinders none)
    return .inl { s with reading := r.enter (.abstraction n) }
  | _, some token =>
    let r ← (s.reading.step ⟨here.position, token⟩).toOption
    return .inl { s with index := s.index + 1, reading := r }

section
variable (scan : Scan)

inductive Reaches : TokenReader → Prop
  | start : Reaches .start
  | turn {s s' : TokenReader} (h : Reaches s) (hturn : s.turn scan = some (.inl s')) : Reaches s'

inductive Ends : TokenReader → Reading → Prop
  | last {s : TokenReader} {r : Reading} (hturn : s.turn scan = some (.inr r)) : Ends s r
  | turn {s s' : TokenReader} {r : Reading} (hturn : s.turn scan = some (.inl s')) (h : Ends s' r) :
    Ends s r

end

end TokenReader

/-! ## Readers that turns lead to -/

namespace TokenReader

section
variable {scan : Scan} {s s' : TokenReader} {r r' : Reading} {e : Enclosure} {es : List Enclosure}
  {stop : Located Stop} {t : Located Token}

theorem sight_of_token (ht : scan.tokens[s.index]? = some t) :
    sight scan s.index = some ⟨t.position, some t.value⟩ := by
  have hlt := (Array.getElem?_eq_some_iff.mp ht).1
  rw [sight, if_neg (Nat.ne_of_lt hlt), ht]
  rfl

theorem sight_of_end (hindex : s.index = scan.tokens.size) :
    sight scan s.index = some ⟨scan.position, none⟩ := by
  rw [sight, if_pos hindex]

theorem leave_eq_some (hle : e.opening.binders.toNat ≤ r.scope.length)
    (h : Reading.leave stop { r with enclosures := es } e = .ok r') :
    leave stop { r with enclosures := es } e = some r' := by
  rw [leave, if_pos hle, h]
  rfl

theorem turn_at_token (ht : scan.tokens[s.index]? = some t)
    (hopen : s.reading.heading = none → t.value ≠ .closing) (hr : s.reading.step t = .ok r) :
    s.turn scan = some (.inl { s with index := s.index + 1, reading := r }) := by
  obtain ⟨p, token⟩ := t
  rw [turn, sight_of_token ht]
  cases hheading : s.reading.heading with
  | none =>
    cases token with
    | closing => exact absurd rfl (hopen hheading)
    | _ =>
      show (s.reading.step _).toOption >>= _ = _
      rw [hr]
      rfl
  | some n =>
    show (s.reading.step _).toOption >>= _ = _
    rw [hr]
    rfl

theorem turn_at_closing (ht : scan.tokens[s.index]? = some t) (hclosing : t.value = .closing)
    (hheading : s.reading.heading = none) : s.turn scan = s.unwind ⟨t.position, .closing⟩ := by
  rw [turn, sight_of_token ht, hheading, hclosing]
  rfl

theorem turn_at_end (hindex : s.index = scan.tokens.size) (hheading : s.reading.heading = none) :
    s.turn scan = s.unwind ⟨scan.position, .endOfText⟩ := by
  rw [turn, sight_of_end hindex, hheading]
  rfl

theorem turn_in_heading {n : UInt32} (hindex : s.index = scan.tokens.size)
    (hheading : s.reading.heading = some n) :
    s.turn scan = some (.inl { s with
      reading :=
        (s.reading.report scan.position (.brokenBinders none)).enter (.abstraction n) }) := by
  rw [turn, sight_of_end hindex, hheading]
  rfl

end

/-- What the turns of a reader keep up: the scope has the names of the open constructs, and every
binder takes a token. -/
structure Sound (scan : Scan) (s : TokenReader) : Prop where
  index_le : s.index ≤ scan.tokens.size
  scope_eq : s.reading.scope.length = s.reading.bound
  weight_le : s.reading.weight ≤ s.index
  at_end : s.saidUnclosed = true → s.index = scan.tokens.size ∧ s.reading.heading = none

def remaining (scan : Scan) (s : TokenReader) : Nat :=
  3 * (scan.tokens.size - s.index) + s.reading.openCount

def readFrom (scan : Scan) (index : Nat) (r : Reading) : Checked Reading := do
  let r ← (scan.tokens.toList.drop index).foldlM Reading.step r
  r.finish scan.position

def rest (scan : Scan) (s : TokenReader) : Checked Reading :=
  if s.saidUnclosed then s.reading.endAll scan.position else readFrom scan s.index s.reading

/-- What a turn comes to: a reader with less to do that reads the same, or its reading. -/
def Proceeds (scan : Scan) (s : TokenReader) : TokenReader ⊕ Reading → Prop
  | .inl s' => Sound scan s' ∧ s'.remaining scan < s.remaining scan ∧ s'.rest scan = s.rest scan
  | .inr r => s.rest scan = .ok r

section
variable {scan : Scan} {s : TokenReader} {r r' : Reading} {t : Located Token} {i : Nat}

theorem readFrom_of_token (ht : scan.tokens[i]? = some t) (r : Reading) :
    readFrom scan i r = r.step t >>= readFrom scan (i + 1) := by
  obtain ⟨hlt, ht⟩ := Array.getElem?_eq_some_iff.mp ht
  have hdrop : scan.tokens.toList.drop i = t :: scan.tokens.toList.drop (i + 1) := by
    rw [List.drop_eq_getElem_cons (by simpa using hlt), Array.getElem_toList, ht]
  rw [readFrom, hdrop, List.foldlM_cons]
  cases r.step t <;> rfl

theorem readFrom_of_step (ht : scan.tokens[i]? = some t) (hr : r.step t = .ok r') :
    readFrom scan i r = readFrom scan (i + 1) r' := by
  rw [readFrom_of_token ht, hr]
  rfl

theorem readFrom_of_end (r : Reading) :
    readFrom scan scan.tokens.size r = r.finish scan.position := by
  rw [readFrom, List.drop_eq_nil_of_le (by simp)]
  rfl

theorem Sound.turn_of_heading (h : Sound scan ⟨scan.tokens.size, r, false⟩) {n : UInt32}
    (hheading : r.heading = some n) :
    ∃ x, turn scan ⟨scan.tokens.size, r, false⟩ = some x ∧
      Proceeds scan ⟨scan.tokens.size, r, false⟩ x := by
  obtain ⟨hbound, hweight⟩ := Reading.enter_counts (r.report scan.position (.brokenBinders none))
    (o := .abstraction n) (by show _ = r.heading.elim 0 _; rw [hheading]; rfl)
  refine ⟨_, turn_in_heading rfl hheading, ⟨Nat.le_refl _, ?_, ?_, nofun⟩, ?_, ?_⟩
  · rw [hbound]
    exact h.scope_eq
  · rw [hweight]
    exact h.weight_le
  · show _ + (r.enclosures.length + 1 + 0) < _ + (r.enclosures.length + _)
    rw [hheading]
    exact Nat.lt_succ_self _
  · show readFrom scan _ _ = readFrom scan _ r
    rw [readFrom_of_end, readFrom_of_end, Reading.finish_of_heading hheading]

end

section
variable {scan : Scan} {s : TokenReader} {r : Reading} {t : Located Token} {i : Nat} {said : Bool}
  (hsize : scan.tokens.size < UInt32.size)

include hsize

theorem Sound.turn_of_token (h : Sound scan ⟨i, r, false⟩) (ht : scan.tokens[i]? = some t)
    (hopen : r.heading = none → t.value ≠ .closing) :
    ∃ x, turn scan ⟨i, r, false⟩ = some x ∧ Proceeds scan ⟨i, r, false⟩ x := by
  have hlt := (Array.getElem?_eq_some_iff.mp ht).1
  have hindex : r.weight ≤ i := h.weight_le
  obtain ⟨r', hr', hgrows⟩ := Reading.exists_step hopen (by omega) h.scope_eq
  obtain ⟨hscope, hweight, hcount⟩ := hgrows
  refine ⟨_, turn_at_token ht hopen hr', ⟨hlt, hscope, ?_, nofun⟩, ?_, ?_⟩
  · show r'.weight ≤ i + 1
    omega
  · show 3 * (_ - (i + 1)) + r'.openCount < 3 * (_ - i) + r.openCount
    omega
  · exact (readFrom_of_step ht hr').symm

theorem Sound.turn_of_closing (h : Sound scan ⟨i, r, false⟩) {p : Position}
    (ht : scan.tokens[i]? = some ⟨p, .closing⟩) (hheading : r.heading = none) :
    ∃ x, turn scan ⟨i, r, false⟩ = some x ∧ Proceeds scan ⟨i, r, false⟩ x := by
  have hlt := (Array.getElem?_eq_some_iff.mp ht).1
  have hindex : r.weight ≤ i := h.weight_le
  have hclose := Reading.step_closing (p := p) hheading
  rw [turn_at_closing ht rfl hheading, unwind]
  cases hes : r.enclosures with
  | nil =>
    have hstep := hclose.trans (Reading.close_of_nil hheading hes)
    obtain ⟨hscope, hbound, hweight, hcount⟩ := r.demand_counts ⟨p, .closing⟩
    refine ⟨_, rfl, ⟨hlt, ?_, Nat.le_trans (Nat.le_of_eq hweight) (Nat.le_succ_of_le hindex),
      nofun⟩, ?_, (readFrom_of_step ht hstep).symm⟩
    · show (r.demand _).scope.length = (r.demand _).bound
      rw [hscope, hbound]
      exact h.scope_eq
    · show 3 * (_ - (i + 1)) + (r.demand ⟨p, .closing⟩).openCount < 3 * (_ - i) + r.openCount
      omega
  | cons e es =>
    obtain ⟨hle, r', hr', hheading', hscope, hweight, hcount⟩ :=
      Reading.exists_leave_innermost hes hheading h.scope_eq (by omega) ⟨p, .closing⟩
    simp only [leave_eq_some hle hr']
    cases he : e.opening with
    | abstraction n =>
      refine ⟨_, rfl, ⟨h.index_le, hscope, Nat.le_trans hweight hindex, nofun⟩, ?_, ?_⟩
      · exact Nat.add_lt_add_left hcount _
      · show readFrom scan i r' = readFrom scan i r
        rw [readFrom_of_token ht, readFrom_of_token ht, hclose, Reading.step_closing hheading',
          Reading.close_of_abstraction hes he hr']
    | group =>
      have hstep := hclose.trans ((Reading.close_of_group hheading hes he).trans hr')
      refine ⟨_, rfl, ⟨hlt, hscope, Nat.le_trans hweight (Nat.le_succ_of_le hindex), nofun⟩, ?_,
        (readFrom_of_step ht hstep).symm⟩
      show 3 * (_ - (i + 1)) + r'.openCount < 3 * (_ - i) + r.openCount
      omega

theorem Sound.turn_of_end (h : Sound scan ⟨scan.tokens.size, r, said⟩)
    (hheading : r.heading = none) :
    ∃ x, turn scan ⟨scan.tokens.size, r, said⟩ = some x ∧
      Proceeds scan ⟨scan.tokens.size, r, said⟩ x := by
  have hindex : r.weight ≤ scan.tokens.size := h.weight_le
  rw [turn_at_end rfl hheading, unwind]
  cases hes : r.enclosures with
  | nil =>
    refine ⟨_, rfl, ?_⟩
    show (if said then _ else _) = _
    rw [Reading.endAll_of_nil hes, readFrom_of_end, Reading.finish_of_nil hheading hes, ite_self]
  | cons e es =>
    obtain ⟨hle, r', hr', hheading', hscope, hweight, hcount⟩ :=
      Reading.exists_leave_innermost hes hheading h.scope_eq (by omega) ⟨scan.position, .endOfText⟩
    have hproceeds : ∀ (q : Reading) (said' : Bool), q.scope.length = q.bound →
        q.weight = r'.weight → q.openCount = r'.openCount → q.heading = none →
        rest scan ⟨scan.tokens.size, q, said'⟩ = rest scan ⟨scan.tokens.size, r, said⟩ →
        Proceeds scan ⟨scan.tokens.size, r, said⟩ (.inl ⟨scan.tokens.size, q, said'⟩) := by
      intro q said' hq hqweight hqcount hqheading hrest
      refine ⟨⟨Nat.le_refl _, hq, ?_, fun _ => ⟨rfl, hqheading⟩⟩, ?_, hrest⟩
      · show q.weight ≤ scan.tokens.size
        omega
      · exact Nat.add_lt_add_left (by rw [hqcount]; exact hcount) _
    simp only [leave_eq_some hle hr']
    cases he : e.opening with
    | abstraction n =>
      refine ⟨_, rfl, hproceeds r' said hscope rfl rfl hheading' ?_⟩
      cases said with
      | true => exact (Reading.endAll_of_cons hes hr').symm
      | false =>
        show readFrom scan _ r' = readFrom scan _ r
        rw [readFrom_of_end, readFrom_of_end, Reading.finish_of_abstraction hheading hes he hr']
    | group =>
      cases said with
      | true =>
        refine ⟨_, rfl, hproceeds r' true hscope rfl rfl hheading' ?_⟩
        exact (Reading.endAll_of_cons hes hr').symm
      | false =>
        refine ⟨_, rfl, hproceeds (r'.report _ _) true hscope rfl rfl hheading' ?_⟩
        show Reading.endAll _ _ = readFrom scan _ r
        rw [readFrom_of_end, Reading.finish_of_group hheading hes he hr']

theorem Sound.turn (h : Sound scan s) : ∃ x, s.turn scan = some x ∧ s.Proceeds scan x := by
  obtain ⟨i, r, said⟩ := s
  by_cases hend : i = scan.tokens.size
  · subst hend
    cases hheading : r.heading with
    | none => exact h.turn_of_end hsize hheading
    | some n =>
      cases said with
      | false => exact h.turn_of_heading hheading
      | true =>
        have hnone : r.heading = none := (h.at_end rfl).2
        rw [hheading] at hnone
        cases hnone
  · cases said with
    | true => exact absurd (h.at_end rfl).1 hend
    | false =>
      have hlt : i < scan.tokens.size := Nat.lt_of_le_of_ne h.index_le hend
      have ht : scan.tokens[i]? = some scan.tokens[i] := Array.getElem?_eq_getElem hlt
      by_cases hclosing : r.heading = none ∧ scan.tokens[i].value = .closing
      · refine h.turn_of_closing hsize (p := scan.tokens[i].position) ?_ hclosing.1
        rw [ht, ← hclosing.2]
      · exact h.turn_of_token hsize ht fun hnone hc => hclosing ⟨hnone, hc⟩

theorem Sound.exists_ends {s : TokenReader} (h : Sound scan s) :
    ∃ r, Ends scan s r ∧ s.rest scan = .ok r := by
  obtain ⟨x, hx, hproceeds⟩ := h.turn hsize
  cases x with
  | inr r => exact ⟨r, .last hx, hproceeds⟩
  | inl s' =>
    obtain ⟨hs', hless, hrest⟩ := hproceeds
    obtain ⟨r, hr, hr'⟩ := hs'.exists_ends
    exact ⟨r, .turn hx hr, hrest ▸ hr'⟩
termination_by s.remaining scan

theorem Reaches.sound (h : Reaches scan s) : Sound scan s := by
  induction h with
  | start => exact ⟨Nat.zero_le _, rfl, Nat.le_refl _, nofun⟩
  | turn h hturn ih =>
    obtain ⟨x, hx, hproceeds⟩ := ih.turn hsize
    rw [hturn] at hx
    cases hx
    exact hproceeds.1

end

end TokenReader

/-! ## Every text -/

theorem Scan.size_tokens_le (source : String) :
    (ofString source).tokens.size ≤ source.utf8ByteSize := by
  have hmarks := (marks_tokens source).length_le
  rw [positions, List.length_map, Array.length_toList] at hmarks
  exact Nat.le_trans hmarks (length_toList_le source)

theorem exists_examine {source : String} (hsize : source.utf8ByteSize < UInt32.size - 1) :
    ∃ r, TokenReader.Ends (Scan.ofString source) .start r ∧
      examine source = .ok ((Scan.ofString source).invalid.toList.map (⟨·, .invalidCharacter⟩) ++
        r.problems.toList, r.current) ∧ (r.problems = #[] → ∃ t, r.current = some t) := by
  have htokens := Scan.size_tokens_le source
  have hstart : TokenReader.Sound (Scan.ofString source) .start :=
    TokenReader.Reaches.start.sound (by omega)
  obtain ⟨r, hends, hrest⟩ := hstart.exists_ends (by omega)
  obtain ⟨r₀, hr₀, hr⟩ := Checked.bind_eq_ok_iff.mp hrest
  rw [show TokenReader.start.index = 0 from rfl, List.drop_zero] at hr₀
  exact ⟨r, hends, examine_eq_ok_iff.mpr ⟨r₀, r, hr₀, hr, rfl, rfl⟩,
    Reading.exists_current_of_finish hr⟩

theorem exists_current_of_examine {source : String} {current : Option Term}
    (hsize : source.utf8ByteSize < UInt32.size - 1) (h : examine source = .ok ([], current)) :
    ∃ t, current = some t := by
  obtain ⟨r, -, hexamine, hcurrent⟩ := exists_examine hsize
  rw [h] at hexamine
  obtain ⟨hnil, rfl⟩ := Prod.mk.inj (Except.ok.inj hexamine)
  exact hcurrent (Array.toList_eq_nil_iff.mp (List.append_eq_nil_iff.mp hnil.symm).2)

theorem exists_parse_iff {file source : String} {problems : List (Located Problem)}
    {current : Option Term} (hsize : source.utf8ByteSize < UInt32.size - 1)
    (h : examine source = .ok (problems, current)) :
    (∃ t, parse file source = .ok (.ok t)) ↔ problems = [] := by
  constructor
  · rintro ⟨t, ht⟩
    refine Decidable.byContradiction fun hne => ?_
    rw [parse_of_examine_ne_nil h hne] at ht
    cases ht
  · rintro rfl
    obtain ⟨t, rfl⟩ := exists_current_of_examine hsize h
    exact ⟨t, parse_of_examine h⟩

theorem Scan.position_lt {source : String} {cs : List Char}
    (hsize : source.utf8ByteSize < UInt32.size - 1) (h : cs <+: source.toList) :
    (cs.foldl step .start).position.line < UInt32.size ∧
      (cs.foldl step .start).position.column < UInt32.size := by
  obtain ⟨rest, hcs⟩ := h
  have hbytes : (String.ofList cs).utf8ByteSize ≤ source.utf8ByteSize := by
    rw [← String.ofList_toList (s := source), ← hcs, String.ofList_append,
      String.utf8ByteSize_append]
    exact Nat.le_add_right _ _
  obtain ⟨hline, hcolumn⟩ := Position.behind_le cs
  rw [(scanned_foldl cs).position_eq]
  omega

/-- Every turn has a result, and the turns come to an end. The text is accepted if no problem has
been reported until then; otherwise the report keeps the first hundred and counts the others. -/
theorem parse_accounts_for_every_problem (file source : String)
    (hsize : source.utf8ByteSize < UInt32.size - 1) :
    let scan := Scan.ofString source
    (∀ s, TokenReader.Reaches scan s →
      s.index ≤ scan.tokens.size ∧ s.reading.scope.length = s.reading.bound ∧
        s.reading.scope.length < UInt32.size ∧
        ∃ x, s.turn scan = some x ∧ ∀ s', x = .inl s' → s'.remaining scan < s.remaining scan) ∧
    (∀ cs, cs <+: source.toList →
      (cs.foldl Scan.step .start).position.line < UInt32.size ∧
        (cs.foldl Scan.step .start).position.column < UInt32.size) ∧
    ∃ r problems, TokenReader.Ends scan .start r ∧
      problems = scan.invalid.toList.map (⟨·, .invalidCharacter⟩) ++ r.problems.toList ∧
      ((∃ t, parse file source = .ok (.ok t)) ↔ problems = []) ∧
      (problems ≠ [] → ∃ report, parse file source = .ok (.error report) ∧
        report = problems.foldl (Report.add file) ⟨[], 0⟩ ∧
        report.diagnostics = (problems.take 100).map (.ofProblem file) ∧
        report.omitted = problems.length - min 100 problems.length ∧
        report.diagnostics ≠ []) := by
  intro scan
  have htokens : scan.tokens.size ≤ source.utf8ByteSize := Scan.size_tokens_le source
  refine ⟨?_, fun cs => Scan.position_lt hsize, ?_⟩
  · intro s hs
    have hsound := hs.sound (by omega)
    have hindex := hsound.index_le
    have hweight := hsound.weight_le
    have hscope := hsound.scope_eq
    have hbound := s.reading.bound_le_weight
    obtain ⟨x, hx, hproceeds⟩ := hsound.turn (by omega)
    refine ⟨hindex, hscope, by omega, x, hx, ?_⟩
    rintro s' rfl
    exact hproceeds.2.1
  · obtain ⟨r, hends, hexamine, -⟩ := exists_examine hsize
    refine ⟨r, _, hends, rfl, exists_parse_iff hsize hexamine, fun hne => ?_⟩
    obtain ⟨hfold, homitted, hkept⟩ := Report.ofProblems_eq file hne
    exact ⟨_, parse_of_examine_ne_nil hexamine hne, hfold, rfl, homitted, hkept⟩

theorem parse_accounts_for_every_problem_broken :
    ") (\\x y".utf8ByteSize < UInt32.size - 1 ∧
      ∃ r, TokenReader.Ends (Scan.ofString ") (\\x y") .start r ∧ r.problems.size = 7 ∧
        ∃ report, parse "broken" ") (\\x y" = .ok (.error report) ∧
          report = r.problems.toList.foldl (Report.add "broken") ⟨[], 0⟩ := by
  -- the `)` closes nothing, and neither the list of binders nor the group ends
  have hsize : ") (\\x y".utf8ByteSize < UInt32.size - 1 := by decide
  obtain ⟨-, -, r, problems, hends, hproblems, haccepted, hrejected⟩ :=
    parse_accounts_for_every_problem "broken" _ hsize
  have hparse : parse "broken" ") (\\x y" = .ok (.error ⟨[
      ⟨"broken", ⟨1, 1⟩, "Unexpected ')', expected expression"⟩,
      ⟨"broken", ⟨1, 1⟩, "Unexpected ')', there is no corresponding '('"⟩,
      ⟨"broken", ⟨1, 8⟩, "Unexpected end of file, expected identifier or '.'"⟩,
      ⟨"broken", ⟨1, 8⟩, "Unexpected end of file, expected expression"⟩,
      ⟨"broken", ⟨1, 8⟩, "Unexpected end of file, expected expression"⟩,
      ⟨"broken", ⟨1, 8⟩, "Unclosed parenthesis"⟩,
      ⟨"broken", ⟨1, 8⟩, "Unexpected end of file, expected expression"⟩], 0⟩) := rfl
  rw [show (Scan.ofString ") (\\x y").invalid = #[] from rfl] at hproblems
  have hall : problems = r.problems.toList := hproblems
  have hne : problems ≠ [] := by
    intro hnil
    obtain ⟨t, ht⟩ := haccepted.mpr hnil
    rw [hparse] at ht
    cases ht
  obtain ⟨report, hreport, hfold, hkept, -, -⟩ := hrejected hne
  refine ⟨hsize, r, hends, ?_, report, hreport, hall ▸ hfold⟩
  have hlength := congrArg List.length hkept
  rw [List.length_map, List.length_take, hall, Array.length_toList] at hlength
  rw [hparse] at hreport
  cases hreport
  have hseven : 7 = min 100 r.problems.size := hlength
  omega

end WeakHead
