import WeakHead.Source
import WeakHead.Proofs.ParseSound
import WeakHead.Proofs.Places

/-!
# The language of programs

A source text is a program exactly if it has no invalid character and the
grammar derives its tokens as a named term without loose names. The program is
then this term, nameless and with fused binders. Of any other text the report
keeps the first hundred problems and counts the others, as it would if they
were told one by one, those of the scan before those of the reading.
-/

namespace WeakHead

/-! ## Reports, one problem at a time -/

namespace Report

def add (file : String) (report : Report) (problem : Located Problem) : Report :=
  if report.diagnostics.length < limit then
    { report with diagnostics := report.diagnostics ++ [.ofProblem file problem] }
  else { report with omitted := report.omitted + 1 }

theorem ofProblems_concat (file : String) (ps : List (Located Problem)) (p : Located Problem) :
    ofProblems file (ps ++ [p]) = (ofProblems file ps).add file p := by
  unfold add ofProblems
  simp only [List.length_map, List.length_take, List.length_append, List.length_singleton]
  by_cases h : ps.length < limit
  · have hall : ps.take limit = ps := List.take_of_length_le (Nat.le_of_lt h)
    have hall' : (ps ++ [p]).take limit = ps ++ [p] :=
      List.take_of_length_le (by rw [List.length_append]; exact h)
    have hnone : ps.length + 1 - limit = ps.length - limit := by omega
    rw [if_pos (by omega), hall, hall', hnone, List.map_append]
    rfl
  · have hkeep : (ps ++ [p]).take limit = ps.take limit :=
      List.take_append_of_le_length (Nat.le_of_not_lt h)
    have hmore : ps.length + 1 - limit = ps.length - limit + 1 := by omega
    rw [if_neg (by omega), hkeep, hmore]

theorem foldl_add (file : String) (ps qs : List (Located Problem)) :
    qs.foldl (add file) (ofProblems file ps) = ofProblems file (ps ++ qs) := by
  induction qs generalizing ps with
  | nil => rw [List.append_nil]; rfl
  | cons q qs ih => rw [List.foldl_cons, ← ofProblems_concat, ih, List.append_assoc]; rfl

theorem ofProblems_eq (file : String) {ps : List (Located Problem)} (hne : ps ≠ []) :
    ofProblems file ps = ps.foldl (add file) ⟨[], 0⟩ ∧
      (ofProblems file ps).omitted = ps.length - min 100 ps.length ∧
      (ofProblems file ps).diagnostics ≠ [] := by
  have hmin : ∀ n : Nat, n - 100 = n - min 100 n := by omega
  refine ⟨(foldl_add file [] ps).symm, hmin ps.length, fun hnil => ?_⟩
  have htake := List.map_eq_nil_iff.mp hnil
  exact (List.take_eq_nil_iff.mp htake).elim (by decide) hne

end Report

/-! ## Examining a text -/

/-- The problems of a text and what can be read of it. -/
def examine (source : String) : Checked (List (Located Problem) × Option Term) := do
  let scan := Scan.ofString source
  let reading ← scan.tokens.toList.foldlM Reading.step .start
  let reading ← reading.finish scan.position
  return (scan.invalid.toList.map (⟨·, .invalidCharacter⟩) ++ reading.problems.toList,
    reading.current)

section
variable {file source : String} {problems : List (Located Problem)} {current : Option Term}

theorem examine_eq_ok_iff : examine source = .ok (problems, current) ↔
    ∃ r r', (Scan.ofString source).tokens.toList.foldlM Reading.step .start = .ok r ∧
      r.finish (Scan.ofString source).position = .ok r' ∧
      problems = (Scan.ofString source).invalid.toList.map (⟨·, .invalidCharacter⟩) ++
        r'.problems.toList ∧ current = r'.current := by
  unfold examine
  rw [Checked.bind_eq_ok_iff]
  refine exists_congr fun r => ?_
  rw [Checked.bind_eq_ok_iff, ← exists_and_left]
  refine exists_congr fun r' => ?_
  refine and_congr_right fun _ => and_congr_right fun _ => ?_
  show Except.ok _ = Except.ok _ ↔ _
  rw [Except.ok.injEq, Prod.mk.injEq, eq_comm, eq_comm (a := current)]

theorem parse_of_examine {t : Term} (h : examine source = .ok ([], some t)) :
    parse file source = .ok (.ok t) := by
  obtain ⟨r, r', hr, hr', hproblems, hcurrent⟩ := examine_eq_ok_iff.mp h
  unfold parse
  rw [Checked.bind_eq_ok_iff]
  refine ⟨r, hr, ?_⟩
  rw [Checked.bind_eq_ok_iff]
  refine ⟨r', hr', ?_⟩
  rw [← hproblems, ← hcurrent]
  rfl

theorem parse_of_examine_ne_nil (h : examine source = .ok (problems, current))
    (hne : problems ≠ []) : parse file source = .ok (.error (.ofProblems file problems)) := by
  obtain ⟨r, r', hr, hr', hproblems, -⟩ := examine_eq_ok_iff.mp h
  obtain ⟨p, ps, rfl⟩ := List.exists_cons_of_ne_nil hne
  unfold parse
  rw [Checked.bind_eq_ok_iff]
  refine ⟨r, hr, ?_⟩
  rw [Checked.bind_eq_ok_iff]
  refine ⟨r', hr', ?_⟩
  rw [← hproblems]
  rfl

end

/-! ## Programs -/

section
variable {file source : String} {t : Term}

theorem parse_eq_ok_iff : parse file source = .ok (.ok t) ↔
    ∃ r r', (Scan.ofString source).tokens.toList.foldlM Reading.step .start = .ok r ∧
      r.finish (Scan.ofString source).position = .ok r' ∧
      (Scan.ofString source).invalid = #[] ∧ r'.problems = #[] ∧ r'.current = some t := by
  unfold parse
  constructor
  · intro h
    obtain ⟨r, hr, h⟩ := Checked.bind_eq_ok_iff.mp h
    obtain ⟨r', hr', h⟩ := Checked.bind_eq_ok_iff.mp h
    refine ⟨r, r', hr, hr', ?_⟩
    dsimp only at h
    split at h
    case h_1 program hproblems hcurrent =>
      cases h
      rw [List.append_eq_nil_iff, List.map_eq_nil_iff] at hproblems
      exact ⟨Array.toList_eq_nil_iff.mp hproblems.1, Array.toList_eq_nil_iff.mp hproblems.2,
        hcurrent⟩
    case h_2 => cases h
  · rintro ⟨r, r', hr, hr', hinvalid, hproblems, hcurrent⟩
    rw [Checked.bind_eq_ok_iff]
    refine ⟨r, hr, ?_⟩
    rw [Checked.bind_eq_ok_iff]
    refine ⟨r', hr', ?_⟩
    simp only [hinvalid, hproblems, hcurrent]
    rfl

theorem invalid_ofString_eq_empty_iff :
    (Scan.ofString source).invalid = #[] ↔ ∀ c ∈ source.toList, ¬ IsInvalidChar c := by
  have hmarks := Scan.marks_invalid source
  rw [← Array.toList_eq_nil_iff]
  constructor
  · intro hnil c hc hinvalid
    obtain ⟨before, rest, hsplit⟩ := List.append_of_mem hc
    have hmem := hmarks.mem_iff.mpr ⟨before, c, rest, hsplit, hinvalid, rfl⟩
    rw [hnil] at hmem
    cases hmem
  · intro hvalid
    refine List.eq_nil_iff_forall_not_mem.mpr fun p hp => ?_
    obtain ⟨before, c, rest, hsplit, hinvalid, -⟩ := hmarks.mem_iff.mp hp
    exact hvalid c (by simp [hsplit]) hinvalid

theorem exists_phrased_of_parse (h : parse file source = .ok (.ok t)) :
    (∀ c ∈ source.toList, ¬ IsInvalidChar c) ∧
      ∃ ts m, Spells .start source.toList ts ∧ Phrased 0 .term ts m := by
  obtain ⟨r, r', hr, hr', hinvalid, hproblems, hcurrent⟩ := parse_eq_ok_iff.mp h
  have hvalid := invalid_ofString_eq_empty_iff.mp hinvalid
  obtain ⟨ts, hts⟩ := exists_spells source.toList .start hvalid
  rw [Scan.tokens_ofString hts] at hr
  have hclean := (Reading.finish_eq_ok hr' hproblems).2.1
  have hadds := Reading.adds_leaveAbstractions hclean
  have hreads := reads_of_foldlM hr (hadds.problems_eq_empty hproblems)
  obtain ⟨m, hm⟩ := hreads.finish hr' hproblems hcurrent
  exact ⟨hvalid, ts, m, hts, hm⟩

theorem exists_examine_of_phrased (hsize : source.utf8ByteSize < UInt32.size - 1)
    (hvalid : ∀ c ∈ source.toList, ¬ IsInvalidChar c) {ts : List (Located Token)} {m : Phrase}
    (hts : Spells .start source.toList ts) (hm : Phrased 0 .term ts m) :
    ∃ t : Term, (m.unknown [] = [] → t.Translates [] m.named) ∧
      examine source =
        .ok ((m.unknown []).map (fun n => ⟨n.position, .unknownName n.value⟩), some t) := by
  have hchars := length_toList_le source
  have htokens := hts.length_le
  obtain ⟨t, ht, -, htakes⟩ := Reading.isTaken_of_phrased hm .start rfl
    (by simp [Reading.start]; omega)
  obtain ⟨r, hr, hunwinds⟩ := htakes rfl
  refine ⟨t, ht, ?_⟩
  rw [examine_eq_ok_iff, Scan.tokens_ofString hts, invalid_ofString_eq_empty_iff.mpr hvalid]
  refine ⟨r, _, hr, hunwinds.finish rfl _, ?_, rfl⟩
  rw [Reading.problems_add]
  simp [Reading.note, Reading.start]

theorem exists_derives_of_parse (hsize : source.utf8ByteSize < UInt32.size - 1)
    (h : parse file source = .ok (.ok t)) :
    (∀ c ∈ source.toList, ¬ IsInvalidChar c) ∧
      ∃ ts m, Spells .start source.toList ts ∧ Derives .term (ts.map (·.value)) m ∧
        t.Translates [] m := by
  obtain ⟨hvalid, ts, m, hts, hm⟩ := exists_phrased_of_parse h
  obtain ⟨u, hu, hexamine⟩ := exists_examine_of_phrased hsize hvalid hts hm
  by_cases hunknown : m.unknown [] = []
  · rw [hunknown] at hexamine
    rw [parse_of_examine hexamine] at h
    cases h
    exact ⟨hvalid, ts, m.named, hts, hm.derives, hu hunknown⟩
  · rw [parse_of_examine_ne_nil hexamine (by simpa using hunknown)] at h
    cases h

theorem exists_parse_of_derives (hsize : source.utf8ByteSize < UInt32.size - 1)
    {ts : List (Located Token)} {m : Named} {l : Lambda} (hts : Spells .start source.toList ts)
    (hvalid : ∀ c ∈ source.toList, ¬ IsInvalidChar c) (hm : Derives .term (ts.map (·.value)) m)
    (hl : m.nameless [] = some l) (file : String) :
    ∃ t : Term, t.Translates [] m ∧ parse file source = .ok (.ok t) := by
  obtain ⟨phrase, hphrase, rfl⟩ := hm.exists_phrased rfl
  have hunknown : phrase.unknown [] = [] := Phrase.unknown_eq_nil_iff.mpr ⟨l, hl⟩
  obtain ⟨t, ht, hexamine⟩ := exists_examine_of_phrased hsize hvalid hts hphrase
  rw [hunknown] at hexamine
  exact ⟨t, ht hunknown, parse_of_examine hexamine⟩

end

/-- The parser accepts the language of the grammar and says what the grammar says. -/
theorem parse_eq_ok_iff_derives (file source : String)
    (hsize : source.utf8ByteSize < UInt32.size - 1) (t : Term) :
    parse file source = .ok (.ok t) ↔
      (∀ c ∈ source.toList, ¬ IsInvalidChar c) ∧
        ∃ ts m, Spells .start source.toList ts ∧ Derives .term (ts.map (·.value)) m ∧
          m.nameless [] = some t.unfuse ∧ t.Coherent := by
  constructor
  · intro h
    obtain ⟨hvalid, ts, m, hts, hm, ht⟩ := exists_derives_of_parse hsize h
    exact ⟨hvalid, ts, m, hts, hm, ht.nameless_eq, ht.coherent⟩
  · rintro ⟨hvalid, ts, m, hts, hm, hl, hcoherent⟩
    obtain ⟨u, hu, hparse⟩ := exists_parse_of_derives hsize hts hvalid hm hl file
    have hunfuse : u.unfuse = t.unfuse := Option.some.inj (hu.nameless_eq.symm.trans hl)
    rwa [Term.eq_of_unfuse_eq hu.coherent hcoherent hunfuse] at hparse

theorem parse_eq_ok_iff_derives_hidden :
    "\\x. (\\y x. x y)".utf8ByteSize < UInt32.size - 1 ∧
      parse "hidden" "\\x. (\\y x. x y)" = .ok (.ok (.app 3 2 (.var 0 0) (.var 0 1))) ∧
      ∃ ts m, Spells .start "\\x. (\\y x. x y)".toList ts ∧
        Derives .term (ts.map (·.value)) m ∧
        m.nameless [] = some (.lam (.lam (.lam (.app (.var 0) (.var 1))))) := by
  -- the inner `x` hides the outer one, and three abstractions become one node
  have hsize : "\\x. (\\y x. x y)".utf8ByteSize < UInt32.size - 1 := by decide
  have hparse : parse "hidden" "\\x. (\\y x. x y)" =
      .ok (.ok (.app 3 2 (.var 0 0) (.var 0 1))) := rfl
  obtain ⟨-, ts, m, hts, hm, hl, -⟩ := (parse_eq_ok_iff_derives "hidden" _ hsize _).mp hparse
  exact ⟨hsize, hparse, ts, m, hts, hm, hl⟩

end WeakHead
