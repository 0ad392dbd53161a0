import WeakHead.Proofs.Lexing

/-!
# Places in a text

The scan counts lines and columns character by character. What it comes to is
the place that the text before it says: a line for each newline, and a column
for each byte behind the last one. So the invalid characters and the starts of
tokens are found at their places, each once and in their order.
-/

namespace WeakHead

namespace Position

def lastLine (cs : List Char) : List Char := (cs.reverse.takeWhile (· ≠ '\n')).reverse

def behind (cs : List Char) : Position where
  line := 1 + cs.count '\n'
  column := 1 + (String.ofList (lastLine cs)).utf8ByteSize

instance : LT Position where
  lt p q := p.line < q.line ∨ p.line = q.line ∧ p.column < q.column

instance : LE Position where
  le p q := p.line < q.line ∨ p.line = q.line ∧ p.column ≤ q.column

section
variable {p q r : Position}

theorem lt_iff : p < q ↔ p.line < q.line ∨ p.line = q.line ∧ p.column < q.column := Iff.rfl

theorem le_iff : p ≤ q ↔ p.line < q.line ∨ p.line = q.line ∧ p.column ≤ q.column := Iff.rfl

theorem le_refl (p : Position) : p ≤ p := .inr ⟨rfl, Nat.le_refl _⟩

theorem le_of_lt (h : p < q) : p ≤ q := by
  rw [lt_iff] at h
  rw [le_iff]
  omega

theorem lt_trans (hp : p < q) (hq : q < r) : p < r := by
  rw [lt_iff] at hp hq ⊢
  omega

theorem lt_after (p : Position) (c : Char) : p < p.after c := by
  have hc := c.utf8Size_pos
  rw [lt_iff, after]
  split
  · exact .inl (Nat.lt_succ_self _)
  · exact .inr ⟨rfl, Nat.lt_add_of_pos_right hc⟩

end

theorem lastLine_concat (cs : List Char) (c : Char) :
    lastLine (cs ++ [c]) = if c = '\n' then [] else lastLine cs ++ [c] := by
  rw [lastLine, List.reverse_concat, List.takeWhile_cons]
  by_cases hc : c = '\n' <;> simp [hc, lastLine]

theorem behind_concat (cs : List Char) (c : Char) : behind (cs ++ [c]) = (behind cs).after c := by
  rw [behind, lastLine_concat, behind, after, List.count_append]
  by_cases hc : c = '\n'
  · simp [hc, Nat.add_assoc]
  · simp [hc, String.ofList_append, Nat.add_assoc]

theorem foldl_after (cs ds : List Char) : ds.foldl after (behind cs) = behind (cs ++ ds) := by
  induction ds generalizing cs with
  | nil => rw [List.append_nil]; rfl
  | cons d ds ih => rw [List.foldl_cons, ← behind_concat, ih, List.append_assoc]; rfl

theorem behind_lt (cs : List Char) (c : Char) (ds : List Char) :
    behind cs < behind (cs ++ c :: ds) := by
  have hnext : ∀ (cs : List Char) (c : Char), behind cs < behind (cs ++ [c]) := by
    intro cs c
    rw [behind_concat]
    exact lt_after _ _
  induction ds generalizing cs c with
  | nil => exact hnext cs c
  | cons d ds ih =>
    have hrest := ih (cs ++ [c]) d
    rw [List.append_assoc] at hrest
    exact lt_trans (hnext cs c) hrest

theorem behind_le (cs : List Char) :
    (behind cs).line ≤ 1 + (String.ofList cs).utf8ByteSize ∧
      (behind cs).column ≤ 1 + (String.ofList cs).utf8ByteSize := by
  have hmove : ∀ (cs : List Char) (p : Position), 1 ≤ p.column →
      (cs.foldl after p).line ≤ p.line + (String.ofList cs).utf8ByteSize ∧
        (cs.foldl after p).column ≤ p.column + (String.ofList cs).utf8ByteSize := by
    intro cs
    induction cs with
    | nil => exact fun p _ => ⟨Nat.le_add_right _ _, Nat.le_add_right _ _⟩
    | cons c cs ih =>
      intro p hp
      have hc := c.utf8Size_pos
      have hafter : (p.after c).line ≤ p.line + c.utf8Size ∧
          1 ≤ (p.after c).column ∧ (p.after c).column ≤ p.column + c.utf8Size := by
        unfold after
        split
        · exact ⟨Nat.add_le_add_left hc _, Nat.le_refl 1, Nat.le_add_right_of_le hp⟩
        · exact ⟨Nat.le_add_right _ _, Nat.le_add_right_of_le hp, Nat.le_refl _⟩
      obtain ⟨hline, hpos, hcolumn⟩ := hafter
      obtain ⟨hline', hcolumn'⟩ := ih _ hpos
      rw [List.foldl_cons, String.ofList_cons, String.utf8ByteSize_append,
        String.utf8ByteSize_singleton]
      omega
  have hall := hmove cs (behind []) (Nat.le_refl 1)
  rwa [foldl_after] at hall

end Position

/-! ## Marked places -/

/-- The places in a text where a character has a property that can depend on what is before it,
in their order. -/
inductive Marks (P : List Char → Char → Prop) : List Char → List Position → Prop
  | nil : Marks P [] []
  | mark {cs : List Char} {ps : List Position} {c : Char} (h : Marks P cs ps) (hc : P cs c) :
    Marks P (cs ++ [c]) (ps ++ [.behind cs])
  | skip {cs : List Char} {ps : List Position} {c : Char} (h : Marks P cs ps) (hc : ¬ P cs c) :
    Marks P (cs ++ [c]) ps

namespace Marks

section
variable {P : List Char → Char → Prop} {cs : List Char} {ps : List Position} {p : Position}

theorem length_le (h : Marks P cs ps) : ps.length ≤ cs.length := by
  induction h with
  | nil => exact Nat.le_refl _
  | mark h hc ih => simpa using ih
  | skip h hc ih => simpa using Nat.le_succ_of_le ih

theorem concat_eq_iff {before rest : List Char} {c d : Char} :
    cs ++ [c] = before ++ d :: rest ↔
      (rest = [] ∧ cs = before ∧ c = d) ∨
        ∃ rest', rest = rest' ++ [c] ∧ cs = before ++ d :: rest' := by
  rcases List.eq_nil_or_concat rest with rfl | ⟨rest, e, rfl⟩
  · simp [List.append_singleton_inj]
  · have hassoc : before ++ d :: (rest ++ [e]) = before ++ d :: rest ++ [e] := by simp
    rw [List.concat_eq_append, hassoc, List.append_singleton_inj]
    constructor
    · rintro ⟨rfl, rfl⟩
      exact .inr ⟨rest, rfl, rfl⟩
    · rintro (⟨hnil, -⟩ | ⟨rest', hrest, rfl⟩)
      · simp at hnil
      · obtain ⟨rfl, rfl⟩ := List.append_singleton_inj.mp hrest
        exact ⟨rfl, rfl⟩

theorem mem_iff (h : Marks P cs ps) :
    p ∈ ps ↔ ∃ before c rest, cs = before ++ c :: rest ∧ P before c ∧ p = .behind before := by
  induction h with
  | nil => simp
  | @mark cs ps c h hc ih =>
    rw [List.mem_append, List.mem_singleton, ih]
    constructor
    · rintro (⟨before, d, rest, rfl, hd, rfl⟩ | rfl)
      · exact ⟨before, d, rest ++ [c], by simp, hd, rfl⟩
      · exact ⟨cs, c, [], rfl, hc, rfl⟩
    · rintro ⟨before, d, rest, hsplit, hd, rfl⟩
      rcases concat_eq_iff.mp hsplit with ⟨rfl, rfl, rfl⟩ | ⟨rest, rfl, rfl⟩
      · exact .inr rfl
      · exact .inl ⟨before, d, rest, rfl, hd, rfl⟩
  | @skip cs ps c h hc ih =>
    rw [ih]
    constructor
    · rintro ⟨before, d, rest, rfl, hd, rfl⟩
      exact ⟨before, d, rest ++ [c], by simp, hd, rfl⟩
    · rintro ⟨before, d, rest, hsplit, hd, rfl⟩
      rcases concat_eq_iff.mp hsplit with ⟨rfl, rfl, rfl⟩ | ⟨rest, rfl, rfl⟩
      · exact absurd hd hc
      · exact ⟨before, d, rest, rfl, hd, rfl⟩

theorem lt_behind (h : Marks P cs ps) (hp : p ∈ ps) : p < .behind cs := by
  obtain ⟨before, c, rest, rfl, -, rfl⟩ := h.mem_iff.mp hp
  exact Position.behind_lt _ _ _

theorem pairwise (h : Marks P cs ps) : ps.Pairwise (· < ·) := by
  induction h with
  | nil => exact .nil
  | mark h hc ih =>
    refine List.pairwise_append.mpr ⟨ih, List.pairwise_singleton _ _, ?_⟩
    intro p hp q hq
    rw [List.mem_singleton.mp hq]
    exact h.lt_behind hp
  | skip h hc ih => exact ih

end

end Marks

/-! ## The scan -/

/-- A token begins with the character: a sign, or a character of names with none before it. -/
def StartsToken (before : List Char) (c : Char) : Prop :=
  (Token.ofChar? c).isSome = true ∨
    isNameChar c = true ∧ ∀ d ∈ before.getLast?, isNameChar d = false

def positions {α : Type} (xs : List (Located α)) : List Position := xs.map (·.position)

structure Scanned (cs : List Char) (s : Scan) : Prop where
  position_eq : s.position = .behind cs
  pending_iff : s.pending.isSome = true ↔ ∃ c ∈ cs.getLast?, isNameChar c = true
  invalid : Marks (fun _ c => IsInvalidChar c) cs s.invalid.toList
  tokens : Marks StartsToken cs (positions s.tokens.toList ++ positions s.pending.toList)

section
variable {cs : List Char} {s : Scan} {c : Char}

theorem positions_endName (s : Scan) :
    positions s.endName.tokens.toList =
      positions s.tokens.toList ++ positions s.pending.toList := by
  unfold Scan.endName positions
  cases s.pending <;> simp

theorem position_endName (s : Scan) : s.endName.position = s.position := by
  unfold Scan.endName
  cases s.pending <;> rfl

theorem scanned_start : Scanned [] .start := by
  refine ⟨rfl, ?_, .nil, .nil⟩
  simp [Scan.start]

theorem Scanned.step_name (h : Scanned cs s) (hc : isNameChar c = true) :
    Scanned (cs ++ [c]) (s.step c) := by
  have hinvalid : ¬ IsInvalidChar c := by simp [isInvalidChar_iff, hc]
  have hsign : Token.ofChar? c = none := (isNameChar_iff.mp hc).2
  rw [Scan.step, if_pos hc]
  refine ⟨?_, by simp [hc], h.invalid.skip hinvalid, ?_⟩
  · rw [Position.behind_concat, ← h.position_eq]
  cases hpending : s.pending with
  | none =>
    have hlast : ∀ d ∈ cs.getLast?, isNameChar d = false := by
      intro d hd
      refine Bool.eq_false_iff.mpr fun hd' => ?_
      have hsome := h.pending_iff.mpr ⟨d, hd, hd'⟩
      rw [hpending] at hsome
      cases hsome
    have htokens := h.tokens.mark (.inr ⟨hc, hlast⟩)
    rw [hpending, ← h.position_eq] at htokens
    simpa [positions] using htokens
  | some name =>
    obtain ⟨d, hd, hd'⟩ := h.pending_iff.mp (by rw [hpending]; rfl)
    have hnot : ¬ StartsToken cs c := by
      rintro (h | ⟨-, h⟩)
      · rw [hsign] at h
        cases h
      · rw [h d hd] at hd'
        cases hd'
    have htokens := h.tokens.skip hnot
    rw [hpending] at htokens
    exact htokens

theorem Scanned.step_other (h : Scanned cs s) (hc : isNameChar c = false) :
    Scanned (cs ++ [c]) (s.step c) := by
  have hn : ¬ isNameChar c = true := by simp [hc]
  have hpending : (none : Option (Located String)).isSome = true ↔
      ∃ d ∈ (cs ++ [c]).getLast?, isNameChar d = true := by
    simp [hc]
  have hposition : s.endName.position.after c = .behind (cs ++ [c]) := by
    rw [position_endName, h.position_eq, Position.behind_concat]
  have hnone := Scan.pending_endName s
  have hinvalid := h.invalid
  have htokens := h.tokens
  rw [← positions_endName] at htokens
  rw [← Scan.invalid_endName] at hinvalid
  rw [Scan.step, if_neg hn]
  cases hs : Token.ofChar? c with
  | some t =>
    have hvalid : ¬ IsInvalidChar c := by simp [isInvalidChar_iff, hs]
    have hmark := htokens.mark (c := c) (.inl (by rw [hs]; rfl))
    refine ⟨hposition, by simpa [hnone] using hpending, hinvalid.skip hvalid, ?_⟩
    rw [← h.position_eq, ← position_endName] at hmark
    simpa [positions, hnone] using hmark
  | none =>
    have hskip : ¬ StartsToken cs c := by simp [StartsToken, hs, hc]
    have htokens' := htokens.skip hskip
    by_cases hb : isBlank c = true
    · have hvalid : ¬ IsInvalidChar c := by simp [isInvalidChar_iff, hb]
      simp only [if_pos hb]
      refine ⟨hposition, by simpa [hnone] using hpending, hinvalid.skip hvalid, ?_⟩
      simpa [positions, hnone] using htokens'
    · have hmark := hinvalid.mark (c := c) (isInvalidChar_iff.mpr ⟨hc, hs, by simpa using hb⟩)
      simp only [if_neg hb]
      rw [← h.position_eq, ← position_endName] at hmark
      refine ⟨hposition, by simpa [hnone] using hpending, by simpa using hmark, ?_⟩
      simpa [positions, hnone] using htokens'

theorem scanned_foldl (cs : List Char) : Scanned cs (cs.foldl Scan.step .start) := by
  have hrest : ∀ {cs ds : List Char} {s : Scan}, Scanned cs s →
      Scanned (cs ++ ds) (ds.foldl Scan.step s) := by
    intro cs ds
    induction ds generalizing cs with
    | nil =>
      intro s h
      rwa [List.append_nil]
    | cons d ds ih =>
      intro s h
      have hstep : Scanned (cs ++ [d]) (s.step d) := by
        cases hd : isNameChar d with
        | true => exact h.step_name hd
        | false => exact h.step_other hd
      have hend := ih hstep
      rwa [List.append_assoc] at hend
  exact hrest scanned_start

end

namespace Scan

theorem position_ofString (source : String) :
    (ofString source).position = .behind source.toList := by
  rw [ofString, position_endName, (scanned_foldl _).position_eq]

theorem marks_invalid (source : String) :
    Marks (fun _ c => IsInvalidChar c) source.toList (ofString source).invalid.toList := by
  rw [ofString, invalid_endName]
  exact (scanned_foldl _).invalid

theorem marks_tokens (source : String) :
    Marks StartsToken source.toList (positions (ofString source).tokens.toList) := by
  rw [ofString, positions_endName]
  exact (scanned_foldl _).tokens

end Scan

end WeakHead
