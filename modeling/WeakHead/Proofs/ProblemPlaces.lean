import WeakHead.Proofs.TokenReader
import WeakHead.Proofs.ReadingProblems

/-!
# Where problems are

Whatever is read at a token, or at the end of the text, is reported at its
place. Tokens come one behind the other, so the problems of the reading are
in the order of the text; those of the scan are too, and come before them.
-/

namespace WeakHead

namespace Reading

section
variable {p : Position} {found later : List (Located Problem)}

theorem pairwise_at (h : ∀ q ∈ found, q.position = p) : (positions found).Pairwise (· ≤ ·) := by
  have hsame : positions found = List.replicate found.length p := List.map_eq_replicate_iff.mpr h
  rw [hsame]
  exact List.pairwise_replicate.mpr (.inr (Position.le_refl p))

theorem pairwise_append_positions (hfound : (positions found).Pairwise (· ≤ ·))
    (hlater : (positions later).Pairwise (· ≤ ·))
    (h : ∀ a ∈ found, ∀ b ∈ later, a.position < b.position) :
    (positions (found ++ later)).Pairwise (· ≤ ·) := by
  rw [positions, List.map_append]
  refine List.pairwise_append.mpr ⟨hfound, hlater, ?_⟩
  intro p hp q hq
  obtain ⟨a, ha, rfl⟩ := List.mem_map.mp hp
  obtain ⟨b, hb, rfl⟩ := List.mem_map.mp hq
  exact Position.le_of_lt (h a ha b hb)

end

theorem foldlM_adds {ts : List (Located Token)} {r r' : Reading}
    (hts : (positions ts).Pairwise (· < ·)) (h : ts.foldlM step r = .ok r') :
    ∃ new : List (Located Problem), r'.problems.toList = r.problems.toList ++ new ∧
      (positions new).Pairwise (· ≤ ·) ∧
      ∀ q ∈ new, q.position ∈ positions ts ∧ q.value ≠ .invalidCharacter := by
  induction ts generalizing r with
  | nil =>
    cases h
    exact ⟨[], by rw [List.append_nil], .nil, by simp⟩
  | cons t ts ih =>
    obtain ⟨hfirst, hrest⟩ := List.pairwise_cons.mp hts
    rw [List.foldlM_cons] at h
    obtain ⟨r₁, h₁, h⟩ := Checked.bind_eq_ok_iff.mp h
    obtain ⟨now, hnow, hplace⟩ := adds_step h₁
    obtain ⟨later, hlater, hsorted, hplaces⟩ := ih hrest h
    refine ⟨now ++ later, by rw [hlater, hnow, List.append_assoc], ?_, ?_⟩
    · refine pairwise_append_positions (pairwise_at fun q hq => (hplace q hq).1) hsorted ?_
      intro a ha b hb
      rw [(hplace a ha).1]
      exact hfirst _ (hplaces b hb).1
    · intro q hq
      rcases List.mem_append.mp hq with hq | hq
      · rw [(hplace q hq).1]
        exact ⟨List.mem_cons_self, (hplace q hq).2⟩
      · exact ⟨List.mem_cons_of_mem _ (hplaces q hq).1, (hplaces q hq).2⟩

end Reading

/-- Problems of the scan come before those of the reading. Both are in the order of the text, and
every one of them is at an invalid character, at the start of a token or at the end. -/
theorem problems_in_order (file source : String)
    (hsize : source.utf8ByteSize < UInt32.size - 1) :
    ∃ (invalid : List Position) (found problems : List (Located Problem)) (current : Option Term),
      examine source = .ok (problems, current) ∧
      problems = invalid.map (⟨·, .invalidCharacter⟩) ++ found ∧
      invalid.Pairwise (· < ·) ∧
      (∀ p, p ∈ invalid ↔ ∃ before c rest, source.toList = before ++ c :: rest ∧
        IsInvalidChar c ∧ p = .behind before) ∧
      (positions found).Pairwise (· ≤ ·) ∧
      (∀ q ∈ found, q.value ≠ .invalidCharacter ∧ q.value.message ≠ "Invalid character" ∧
        (q.position = .behind source.toList ∨
          ∃ before c rest, source.toList = before ++ c :: rest ∧ StartsToken before c ∧
            q.position = .behind before)) ∧
      ((∃ t, parse file source = .ok (.ok t)) ↔ problems = []) ∧
      (problems ≠ [] → ∃ report, parse file source = .ok (.error report) ∧
        report.diagnostics = List.take 100 (invalid.map (⟨file, ·, "Invalid character"⟩) ++
          found.map fun q => ⟨file, q.position, q.value.message⟩)) := by
  obtain ⟨final, -, hexamine, -⟩ := exists_examine hsize
  obtain ⟨r, r', hr, hr', hproblems, -⟩ := examine_eq_ok_iff.mp hexamine
  have hinvalid := Scan.marks_invalid source
  have htokens := Scan.marks_tokens source
  obtain ⟨new, hnew, hsorted, hplaces⟩ := Reading.foldlM_adds htokens.pairwise hr
  obtain ⟨last, hlast, hend⟩ := Reading.adds_finish hr'
  rw [Scan.position_ofString] at hend
  have hfound : r'.problems.toList = new ++ last := by
    rw [hlast, hnew]
    rfl
  rw [hfound] at hproblems
  refine ⟨_, new ++ last, _, _, hexamine, hproblems, hinvalid.pairwise, fun p => hinvalid.mem_iff,
    ?_, ?_, exists_parse_iff hsize hexamine, ?_⟩
  · refine Reading.pairwise_append_positions hsorted
      (Reading.pairwise_at fun q hq => (hend q hq).1) ?_
    intro a ha b hb
    rw [(hend b hb).1]
    exact htokens.lt_behind (hplaces a ha).1
  · intro q hq
    rcases List.mem_append.mp hq with hq | hq
    · obtain ⟨hplace, hvalue⟩ := hplaces q hq
      exact ⟨hvalue, Problem.message_ne_invalidCharacter hvalue, .inr (htokens.mem_iff.mp hplace)⟩
    · obtain ⟨hplace, hvalue⟩ := hend q hq
      exact ⟨hvalue, Problem.message_ne_invalidCharacter hvalue, .inl hplace⟩
  · intro hne
    refine ⟨_, parse_of_examine_ne_nil hexamine hne, ?_⟩
    rw [hproblems, Report.ofProblems, List.map_take, List.map_append, List.map_map]
    rfl

theorem problems_in_order_two_lines :
    "y \u0001\né (\u0002".utf8ByteSize < UInt32.size - 1 ∧
      ∃ (invalid : List Position) (found problems : List (Located Problem)) (report : Report),
        problems = invalid.map (⟨·, .invalidCharacter⟩) ++ found ∧
        problems.map (·.position) = [⟨1, 3⟩, ⟨2, 5⟩, ⟨1, 1⟩, ⟨2, 1⟩, ⟨2, 6⟩, ⟨2, 6⟩] ∧
        invalid.Pairwise (· < ·) ∧ (positions found).Pairwise (· ≤ ·) ∧
        parse "lines" "y \u0001\né (\u0002" = .ok (.error report) ∧
        report.diagnostics = List.take 100 (invalid.map (⟨"lines", ·, "Invalid character"⟩) ++
          found.map fun q => ⟨"lines", q.position, q.value.message⟩) := by
  -- the control characters come first, then the unknown names, then the empty group
  have hsize : "y \u0001\né (\u0002".utf8ByteSize < UInt32.size - 1 := by decide
  obtain ⟨invalid, found, problems, _, hexamine, hproblems, hinvalid, -, hfound, -, -, htold⟩ :=
    problems_in_order "lines" _ hsize
  have hplaces : problems.map (·.position) =
      [⟨1, 3⟩, ⟨2, 5⟩, ⟨1, 1⟩, ⟨2, 1⟩, ⟨2, 6⟩, ⟨2, 6⟩] := by
    obtain ⟨rfl, -⟩ := Prod.mk.inj (Except.ok.inj hexamine)
    rfl
  have hne : problems ≠ [] := by
    rintro rfl
    cases hplaces
  obtain ⟨report, hreport, hdiagnostics⟩ := htold hne
  exact ⟨hsize, invalid, found, problems, report, hproblems, hplaces, hinvalid, hfound, hreport,
    hdiagnostics⟩

end WeakHead
