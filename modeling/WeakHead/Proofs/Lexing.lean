import WeakHead.Source

/-!
# The tokens of a text

A text without invalid characters spells one list of tokens: blanks stand for
nothing, a sign is a token by itself, and a name is a run of name characters
that no name character follows. The scan finds these tokens and their places.
-/

namespace WeakHead

def IsInvalidChar (c : Char) : Prop := c.toNat < 0x20 ∧ c ≠ '\t' ∧ c ≠ '\n' ∧ c ≠ '\r'

instance (c : Char) : Decidable (IsInvalidChar c) :=
  inferInstanceAs (Decidable (_ ∧ _ ∧ _ ∧ _))

/-- A text that begins at a position, and its tokens. -/
inductive Spells : Position → List Char → List (Located Token) → Prop
  | nil {p : Position} : Spells p [] []
  | blank {p : Position} {c : Char} {cs : List Char} {ts : List (Located Token)}
    (hc : isBlank c = true) (h : Spells (p.after c) cs ts) : Spells p (c :: cs) ts
  | sign {p : Position} {c : Char} {t : Token} {cs : List Char} {ts : List (Located Token)}
    (hc : Token.ofChar? c = some t) (h : Spells (p.after c) cs ts) :
    Spells p (c :: cs) (⟨p, t⟩ :: ts)
  | name {p : Position} {name cs : List Char} {ts : List (Located Token)} (hne : name ≠ [])
    (hname : ∀ c ∈ name, isNameChar c = true) (hend : ∀ c ∈ cs.head?, isNameChar c = false)
    (h : Spells (name.foldl .after p) cs ts) :
    Spells p (name ++ cs) (⟨p, .name (String.ofList name)⟩ :: ts)

/-! ## Classes of characters -/

section
variable {c : Char} {t : Token}

theorem isNameChar_iff : isNameChar c = true ↔ 0x20 < c.toNat ∧ Token.ofChar? c = none := by
  rw [isNameChar, Bool.and_eq_true, decide_eq_true_eq, Option.isNone_iff_eq_none,
    UInt32.lt_iff_toNat_lt]
  rfl

theorem isBlank_iff : isBlank c = true ↔ c = ' ' ∨ c = '\t' ∨ c = '\r' ∨ c = '\n' := by
  simp [isBlank, or_assoc]

theorem not_isNameChar_of_isBlank (h : isBlank c = true) : isNameChar c = false := by
  obtain rfl | rfl | rfl | rfl := isBlank_iff.mp h <;> decide

theorem ofChar?_of_isBlank (h : isBlank c = true) : Token.ofChar? c = none := by
  obtain rfl | rfl | rfl | rfl := isBlank_iff.mp h <;> rfl

theorem not_isNameChar_of_ofChar? (h : Token.ofChar? c = some t) : isNameChar c = false := by
  simp [isNameChar, h]

theorem text_of_ofChar? (h : Token.ofChar? c = some t) : t.text = c.toString := by
  unfold Token.ofChar? at h
  split at h <;> cases h <;> rfl

theorem isInvalidChar_iff :
    IsInvalidChar c ↔ isNameChar c = false ∧ Token.ofChar? c = none ∧ isBlank c = false := by
  have hspace : c = ' ' ↔ c.toNat = 0x20 := Char.toNat_inj.symm
  constructor
  · rintro ⟨hlt, h1, h2, h3⟩
    have hsign : Token.ofChar? c = none := by
      unfold Token.ofChar?
      split <;> first | rfl | exact absurd hlt (by decide)
    refine ⟨?_, hsign, ?_⟩
    · rw [Bool.eq_false_iff, ne_eq, isNameChar_iff]
      omega
    · rw [Bool.eq_false_iff, ne_eq, isBlank_iff, hspace]
      rintro (h | h | h | h)
      · omega
      · exact h1 h
      · exact h3 h
      · exact h2 h
  · rintro ⟨hn, hs, hb⟩
    rw [Bool.eq_false_iff, ne_eq, isNameChar_iff] at hn
    rw [Bool.eq_false_iff, ne_eq, isBlank_iff, hspace] at hb
    simp only [not_or] at hb
    refine ⟨?_, hb.2.1, hb.2.2.2, hb.2.2.1⟩
    have hle : ¬ 0x20 < c.toNat := fun h => hn ⟨h, hs⟩
    have hne := hb.1
    omega

end

/-! ## The scan -/

namespace Scan

section
variable {s : Scan} {p : Position} {cs : List Char} {ts : List (Located Token)}

theorem endName_of_pending (h : s.pending = none) : s.endName = s := by
  rw [endName, h]

theorem pending_endName (s : Scan) : s.endName.pending = none := by
  unfold endName
  cases h : s.pending with
  | none => exact h
  | some => rfl

theorem invalid_endName (s : Scan) : s.endName.invalid = s.invalid := by
  unfold endName
  cases s.pending <;> rfl

theorem foldl_step_endName (hend : ∀ c ∈ cs.head?, isNameChar c = false) (s : Scan) :
    (cs.foldl step s).endName = (cs.foldl step s.endName).endName := by
  have hself : s.endName.endName = s.endName := endName_of_pending (pending_endName s)
  cases cs with
  | nil => exact hself.symm
  | cons c cs =>
    have hc : ¬ isNameChar c = true := by simp [hend c rfl]
    have hstep : s.step c = s.endName.step c := by
      rw [step, step, if_neg hc, if_neg hc, hself]
    rw [List.foldl_cons, List.foldl_cons, hstep]

theorem foldl_step_name {name : List Char} (hname : ∀ c ∈ name, isNameChar c = true) {q : Position}
    {read : List Char} (h : s.pending = some ⟨q, String.ofList read⟩) :
    name.foldl step s = { s with
      position := name.foldl .after s.position
      pending := some ⟨q, String.ofList (read ++ name)⟩ } := by
  induction name generalizing s read with
  | nil => rw [List.append_nil, ← h]; rfl
  | cons c name ih =>
    have hstep : s.step c = { s with
        position := s.position.after c
        pending := some ⟨q, String.ofList (read ++ [c])⟩ } := by
      have hpush : (String.ofList read).push c = String.ofList (read ++ [c]) := by
        rw [← String.toList_inj]
        simp
      rw [step, if_pos (hname c List.mem_cons_self), h, ← hpush]
      rfl
    have hrest := ih (fun d hd => hname d (List.mem_cons_of_mem _ hd))
      (s := { s with
        position := s.position.after c
        pending := some ⟨q, String.ofList (read ++ [c])⟩ }) rfl
    rw [List.foldl_cons, hstep, hrest, List.append_assoc]
    rfl

theorem foldl_step_start_name {name : List Char} (hne : name ≠ [])
    (hname : ∀ c ∈ name, isNameChar c = true) (h : s.pending = none) :
    name.foldl step s = { s with
      position := name.foldl .after s.position
      pending := some ⟨s.position, String.ofList name⟩ } := by
  have hstart : name.foldl step s =
      name.foldl step { s with pending := some ⟨s.position, String.ofList []⟩ } := by
    obtain ⟨c, name, rfl⟩ := List.exists_cons_of_ne_nil hne
    have hc := hname c List.mem_cons_self
    rw [List.foldl_cons, List.foldl_cons, step, step, if_pos hc, if_pos hc, h]
    rfl
  rw [hstart, foldl_step_name hname rfl]
  rfl

theorem foldl_step_of_spells (h : Spells p cs ts) (hp : s.position = p) (hs : s.pending = none) :
    (cs.foldl step s).endName.tokens.toList = s.tokens.toList ++ ts := by
  induction h generalizing s with
  | nil =>
    rw [List.append_nil, List.foldl_nil, endName_of_pending hs]
  | @blank p c cs ts hc h ih =>
    have hstep : s.step c = { s with position := p.after c } := by
      have hn : ¬ isNameChar c = true := by simp [not_isNameChar_of_isBlank hc]
      rw [step, if_neg hn, endName_of_pending hs, ofChar?_of_isBlank hc]
      simp only [hc, hp, if_true]
    have hrest := ih (s := { s with position := p.after c }) rfl hs
    rw [List.foldl_cons, hstep, hrest]
  | @sign p c t cs ts hc h ih =>
    have hstep : s.step c =
        { s with position := p.after c, tokens := s.tokens.push ⟨p, t⟩ } := by
      have hn : ¬ isNameChar c = true := by simp [not_isNameChar_of_ofChar? hc]
      rw [step, if_neg hn, endName_of_pending hs, hc, ← hp]
    have hrest := ih
      (s := { s with position := p.after c, tokens := s.tokens.push ⟨p, t⟩ }) rfl hs
    rw [List.foldl_cons, hstep, hrest]
    simp
  | @name p name cs ts hne hname hend h ih =>
    have hrest := ih
      (s := { s with
        position := name.foldl .after p
        pending := none
        tokens := s.tokens.push ⟨p, .name (String.ofList name)⟩ }) rfl rfl
    rw [List.foldl_append, foldl_step_endName hend, foldl_step_start_name hne hname hs, hp]
    refine hrest.trans ?_
    simp

theorem tokens_ofString {source : String} (h : Spells .start source.toList ts) :
    (ofString source).tokens.toList = ts := by
  rw [ofString, foldl_step_of_spells h rfl rfl]
  rfl

end

end Scan

/-! ## Every valid text spells something -/

theorem exists_spells : ∀ (cs : List Char) (p : Position), (∀ c ∈ cs, ¬ IsInvalidChar c) →
    ∃ ts, Spells p cs ts
  | [], p, _ => ⟨[], .nil⟩
  | c :: cs, p, h => by
    have htail : ∀ d ∈ cs, ¬ IsInvalidChar d := fun d hd => h d (List.mem_cons_of_mem _ hd)
    cases hn : isNameChar c with
    | true =>
      -- the longest run of name characters is a name
      have hsplit : c :: cs = (c :: cs.takeWhile isNameChar) ++ cs.dropWhile isNameChar := by
        rw [List.cons_append, List.takeWhile_append_dropWhile]
      have hlength : (cs.dropWhile isNameChar).length ≤ cs.length :=
        (List.dropWhile_sublist _).length_le
      obtain ⟨ts, hts⟩ := exists_spells (cs.dropWhile isNameChar)
        ((c :: cs.takeWhile isNameChar).foldl .after p)
        fun d hd => htail d ((List.dropWhile_sublist _).subset hd)
      rw [hsplit]
      refine ⟨_, .name (List.cons_ne_nil _ _) ?_ ?_ hts⟩
      · intro d hd
        rcases List.mem_cons.mp hd with rfl | hd
        · exact hn
        · exact List.all_eq_true.mp List.all_takeWhile d hd
      · intro d hd
        have hnot := List.head?_dropWhile_not isNameChar cs
        rw [Option.mem_def.mp hd] at hnot
        exact hnot
    | false =>
      obtain ⟨ts, hts⟩ := exists_spells cs (p.after c) htail
      cases hs : Token.ofChar? c with
      | some t => exact ⟨_, .sign hs hts⟩
      | none =>
        cases hb : isBlank c with
        | true => exact ⟨ts, .blank hb hts⟩
        | false => exact absurd (isInvalidChar_iff.mpr ⟨hn, hs, hb⟩) (h c List.mem_cons_self)
termination_by cs => cs.length

section
variable {p : Position} {cs : List Char} {ts : List (Located Token)}

theorem Spells.not_isInvalidChar (h : Spells p cs ts) : ∀ c ∈ cs, ¬ IsInvalidChar c := by
  induction h with
  | nil => simp
  | blank hc h ih => exact List.forall_mem_cons.mpr ⟨by simp [isInvalidChar_iff, hc], ih⟩
  | sign hc h ih => exact List.forall_mem_cons.mpr ⟨by simp [isInvalidChar_iff, hc], ih⟩
  | name hne hname hend h ih =>
    refine List.forall_mem_append.mpr ⟨fun c hc => ?_, ih⟩
    simp [isInvalidChar_iff, hname c hc]

/-! ## Where tokens are and how many there are -/

theorem Spells.exists_before (h : Spells p cs ts) {t : Located Token} (ht : t ∈ ts) :
    ∃ before rest, cs = before ++ t.value.text.toList ++ rest ∧
      t.position = before.foldl .after p := by
  induction h with
  | nil => cases ht
  | @blank p c cs ts hc h ih =>
    obtain ⟨before, rest, rfl, hbefore⟩ := ih ht
    exact ⟨c :: before, rest, rfl, hbefore⟩
  | @sign p c token cs ts hc h ih =>
    rcases List.mem_cons.mp ht with rfl | ht
    · exact ⟨[], cs, by simp [text_of_ofChar? hc], rfl⟩
    · obtain ⟨before, rest, rfl, hbefore⟩ := ih ht
      exact ⟨c :: before, rest, rfl, hbefore⟩
  | @name p name cs ts hne hname hend h ih =>
    rcases List.mem_cons.mp ht with rfl | ht
    · refine ⟨[], cs, ?_, rfl⟩
      rw [Token.text, String.toList_ofList, List.nil_append]
    · obtain ⟨before, rest, rfl, hbefore⟩ := ih ht
      refine ⟨name ++ before, rest, ?_, ?_⟩
      · simp only [List.append_assoc]
      · rw [hbefore, List.foldl_append]

theorem Spells.length_le (h : Spells p cs ts) : ts.length ≤ cs.length := by
  induction h with
  | nil => exact Nat.le_refl _
  | blank hc h ih => exact Nat.le_succ_of_le ih
  | sign hc h ih => exact Nat.succ_le_succ ih
  | name hne hname hend h ih =>
    have := List.length_pos_iff.mpr hne
    rw [List.length_cons, List.length_append]
    omega

end

theorem length_toList_le (source : String) : source.toList.length ≤ source.utf8ByteSize := by
  have hchars : ∀ cs : List Char, cs.length ≤ cs.utf8Encode.size := by
    intro cs
    induction cs with
    | nil => exact Nat.zero_le _
    | cons c cs ih =>
      have := c.utf8Size_pos
      rw [List.utf8Encode_cons, ByteArray.size_append, List.length_cons,
        List.utf8Encode_singleton]
      simp
      omega
  have := hchars source.toList
  rwa [String.utf8Encode_toList] at this

end WeakHead
