import WeakHead.Proofs.TokenReader

/-!
# Invalid characters

An invalid character does to the tokens what a space does: it ends a name, is
none itself and takes one column. So a text with invalid characters has the
problems of the text with spaces in their place, behind one for each of them.
-/

namespace WeakHead

def blankInvalid (c : Char) : Char := if IsInvalidChar c then ' ' else c

/-- What is answered to a text of which all this is to be told: a program if it is nothing, else the
first hundred diagnostics and the number of the others. -/
def Tells (file source : String) (told : List Diagnostic) : Prop :=
  (told = [] → ∃ t, parse file source = .ok (.ok t)) ∧
    (told ≠ [] → parse file source = .ok (.error ⟨told.take 100, told.length - 100⟩))

theorem tells_of_examine {file source : String} {problems : List (Located Problem)}
    {current : Option Term} (hsize : source.utf8ByteSize < UInt32.size - 1)
    (h : examine source = .ok (problems, current)) :
    Tells file source (problems.map (.ofProblem file)) := by
  constructor
  · intro hnil
    exact (exists_parse_iff hsize h).mpr (List.map_eq_nil_iff.mp hnil)
  · intro hne
    rw [parse_of_examine_ne_nil h (mt List.map_eq_nil_iff.mpr hne), Report.ofProblems,
      List.map_take, List.length_map]
    rfl

/-! ## The text with spaces -/

section
variable {c : Char}

theorem blankInvalid_of_not_isInvalidChar (h : ¬ IsInvalidChar c) : blankInvalid c = c := if_neg h

theorem not_isInvalidChar_blankInvalid (c : Char) : ¬ IsInvalidChar (blankInvalid c) := by
  unfold blankInvalid
  by_cases h : IsInvalidChar c
  · rw [if_pos h]
    decide
  · rwa [if_neg h]

theorem utf8Size_of_isInvalidChar (h : IsInvalidChar c) : c.utf8Size = 1 := by
  have hval : c.toNat ≤ 0x7f := Nat.le_of_lt (Nat.lt_trans h.1 (by decide))
  unfold Char.utf8Size
  exact if_pos hval

theorem utf8Size_blankInvalid (c : Char) : (blankInvalid c).utf8Size = c.utf8Size := by
  unfold blankInvalid
  by_cases h : IsInvalidChar c
  · rw [if_pos h, utf8Size_of_isInvalidChar h]
    rfl
  · rw [if_neg h]

theorem utf8ByteSize_map_blankInvalid (source : String) :
    (source.map blankInvalid).utf8ByteSize = source.utf8ByteSize := by
  have hchars : ∀ cs : List Char,
      (String.ofList (cs.map blankInvalid)).utf8ByteSize = (String.ofList cs).utf8ByteSize := by
    intro cs
    induction cs with
    | nil => rfl
    | cons c cs ih =>
      rw [List.map_cons, String.ofList_cons, String.ofList_cons, String.utf8ByteSize_append,
        String.utf8ByteSize_append, String.utf8ByteSize_singleton, String.utf8ByteSize_singleton,
        utf8Size_blankInvalid, ih]
  have hall := hchars source.toList
  rwa [← String.toList_map, String.ofList_toList, String.ofList_toList] at hall

theorem after_of_isInvalidChar (h : IsInvalidChar c) (p : Position) : p.after c = p.after ' ' := by
  rw [Position.after, if_neg h.2.2.1, utf8Size_of_isInvalidChar h]
  rfl

end

/-! ## The scan -/

namespace Scan

def withoutInvalid (s : Scan) : Scan := { s with invalid := #[] }

theorem withoutInvalid_endName (s : Scan) :
    s.withoutInvalid.endName = s.endName.withoutInvalid := by
  obtain ⟨_, pending, _, _⟩ := s
  cases pending <;> rfl

theorem withoutInvalid_step (s : Scan) (c : Char) :
    s.withoutInvalid.step (blankInvalid c) = (s.step c).withoutInvalid := by
  by_cases hc : IsInvalidChar c
  · obtain ⟨hname, hsign, hblank⟩ := isInvalidChar_iff.mp hc
    have hspace : blankInvalid c = ' ' := if_pos hc
    rw [hspace, step, step, if_neg (by decide), if_neg (by simp [hname]), hsign,
      withoutInvalid_endName]
    simp only [hblank, after_of_isInvalidChar hc]
    rfl
  · rw [blankInvalid_of_not_isInvalidChar hc, step, step]
    by_cases hname : isNameChar c = true
    · rw [if_pos hname, if_pos hname]
      rfl
    · rw [if_neg hname, if_neg hname, withoutInvalid_endName]
      cases hsign : Token.ofChar? c with
      | some token => rfl
      | none =>
        cases hblank : isBlank c with
        | true => rfl
        | false => exact absurd (isInvalidChar_iff.mpr ⟨by simpa using hname, hsign, hblank⟩) hc

theorem withoutInvalid_foldl (cs : List Char) (s : Scan) :
    (cs.map blankInvalid).foldl step s.withoutInvalid = (cs.foldl step s).withoutInvalid := by
  induction cs generalizing s with
  | nil => rfl
  | cons c cs ih => rw [List.map_cons, List.foldl_cons, List.foldl_cons, withoutInvalid_step, ih]

theorem ofString_map_blankInvalid (source : String) :
    ofString (source.map blankInvalid) = (ofString source).withoutInvalid := by
  rw [ofString, ofString, String.toList_map, ← withoutInvalid_endName, ← withoutInvalid_foldl]
  rfl

theorem spells_tokens (source : String) :
    Spells .start (source.toList.map blankInvalid) (ofString source).tokens.toList := by
  have hvalid : ∀ c ∈ (source.map blankInvalid).toList, ¬ IsInvalidChar c := by
    intro c hc
    rw [String.toList_map] at hc
    obtain ⟨d, -, rfl⟩ := List.mem_map.mp hc
    exact not_isInvalidChar_blankInvalid d
  obtain ⟨ts, hts⟩ := exists_spells _ .start hvalid
  have htokens := tokens_ofString hts
  rw [ofString_map_blankInvalid] at htokens
  rw [String.toList_map, ← htokens] at hts
  exact hts

end Scan

theorem examine_map_blankInvalid {source : String} {found : List (Located Problem)}
    {current : Option Term} (h : examine source =
      .ok ((Scan.ofString source).invalid.toList.map (⟨·, .invalidCharacter⟩) ++ found, current)) :
    examine (source.map blankInvalid) = .ok (found, current) := by
  obtain ⟨r, r', hr, hr', hproblems, hcurrent⟩ := examine_eq_ok_iff.mp h
  rw [examine_eq_ok_iff, Scan.ofString_map_blankInvalid]
  exact ⟨r, r', hr, hr', List.append_cancel_left hproblems, hcurrent⟩

/-- An invalid character is reported, and else it is read as a space. -/
theorem invalid_characters_are_spaces (file source : String)
    (hsize : source.utf8ByteSize < UInt32.size - 1) :
    ∃ (invalid : List Position) (found : List (Located Problem)) (current : Option Term),
      invalid.Pairwise (· < ·) ∧
      (∀ p, p ∈ invalid ↔ ∃ before c rest, source.toList = before ++ c :: rest ∧
        IsInvalidChar c ∧ p = .behind before) ∧
      examine source = .ok (invalid.map (⟨·, .invalidCharacter⟩) ++ found, current) ∧
      examine (source.map blankInvalid) = .ok (found, current) ∧
      Tells file source
        (invalid.map (⟨file, ·, "Invalid character"⟩) ++ found.map (.ofProblem file)) ∧
      Tells file (source.map blankInvalid) (found.map (.ofProblem file)) := by
  obtain ⟨r, -, hexamine, -⟩ := exists_examine hsize
  have hinvalid := Scan.marks_invalid source
  have hspaces := examine_map_blankInvalid hexamine
  have hsize' := hsize
  rw [← utf8ByteSize_map_blankInvalid] at hsize'
  have htells : Tells file source _ := tells_of_examine hsize hexamine
  rw [List.map_append, List.map_map] at htells
  exact ⟨_, _, _, hinvalid.pairwise, fun p => hinvalid.mem_iff, hexamine, hspaces, htells,
    tells_of_examine hsize' hspaces⟩

theorem invalid_characters_are_spaces_between_names :
    "\\x\u0001y. z\u0002x".utf8ByteSize < UInt32.size - 1 ∧
      ∃ (invalid : List Position) (found : List (Located Problem)),
        invalid.map (fun p => (p.line, p.column)) = [(1, 3), (1, 8)] ∧
        found = [⟨⟨1, 7⟩, .unknownName "z"⟩] ∧
        Tells "control" "\\x\u0001y. z\u0002x" (invalid.map (⟨"control", ·, "Invalid character"⟩) ++
          [⟨"control", ⟨1, 7⟩, "Unknown identifier 'z'"⟩]) ∧
        Tells "control" "\\x y. z x" [⟨"control", ⟨1, 7⟩, "Unknown identifier 'z'"⟩] := by
  -- the control characters end the name of a binder and the name that is unknown
  have hsize : "\\x\u0001y. z\u0002x".utf8ByteSize < UInt32.size - 1 := by decide
  obtain ⟨invalid, found, current, -, -, hexamine, hspaces, htells, htells'⟩ :=
    invalid_characters_are_spaces "control" _ hsize
  have hproblems : examine "\\x\u0001y. z\u0002x" = .ok ([⟨⟨1, 3⟩, .invalidCharacter⟩,
      ⟨⟨1, 8⟩, .invalidCharacter⟩, ⟨⟨1, 7⟩, .unknownName "z"⟩], _) := rfl
  have hfound : examine "\\x y. z x" = .ok ([⟨⟨1, 7⟩, .unknownName "z"⟩], _) := rfl
  have hmap : "\\x\u0001y. z\u0002x".map blankInvalid = "\\x y. z x" := by
    rw [← String.toList_inj, String.toList_map]
    decide
  rw [hmap] at hspaces htells'
  rw [hfound] at hspaces
  obtain ⟨rfl, -⟩ := Prod.mk.inj (Except.ok.inj hspaces)
  rw [hproblems] at hexamine
  have hall := (Prod.mk.inj (Except.ok.inj hexamine)).1
  refine ⟨hsize, invalid, _, ?_, rfl, htells, htells'⟩
  have hplaces := congrArg (List.map (fun q => (q.position.line, q.position.column))) hall
  rw [List.map_append, List.map_map] at hplaces
  have hsplit : [(1, 3), (1, 8)] ++ [(1, 7)] =
      invalid.map (fun p => (p.line, p.column)) ++ [(1, 7)] := hplaces
  exact (List.append_cancel_right hsplit).symm

end WeakHead
