import WeakHead.Proofs.Parsing

/-!
# Lists of binders without names

An abstraction should bind a name. The parser does not ask for one: a separator
that directly follows a lambda ends the list of binders, and nothing is
reported. This is all that it accepts beyond a grammar whose lists of binders
have names.
-/

namespace WeakHead

/-- A separator directly follows a lambda. -/
def BindsNothing (ts : List (Located Token)) : Prop :=
  ∃ p q lambda separator, [⟨p, .lambda lambda⟩, ⟨q, .separator separator⟩] <:+: ts

section
variable {ts us : List (Located Token)} {t : Located Token}

theorem BindsNothing.mono (h : BindsNothing ts) (hts : ts <:+: us) : BindsNothing us := by
  obtain ⟨p, q, lambda, separator, h⟩ := h
  exact ⟨p, q, lambda, separator, h.trans hts⟩

theorem not_bindsNothing_nil : ¬ BindsNothing [] := by
  rintro ⟨p, q, lambda, separator, h⟩
  cases List.infix_nil.mp h

theorem bindsNothing_cons_iff : BindsNothing (t :: ts) ↔
    (∃ lambda, t.value = .lambda lambda) ∧
      (∃ u ∈ ts.head?, ∃ separator, u.value = .separator separator) ∨ BindsNothing ts := by
  constructor
  · rintro ⟨p, q, lambda, separator, h⟩
    rcases List.infix_cons_iff.mp h with ⟨rest, hrest⟩ | h
    · obtain ⟨rfl, rfl⟩ := List.cons.inj hrest
      exact .inl ⟨⟨lambda, rfl⟩, _, rfl, separator, rfl⟩
    · exact .inr ⟨p, q, lambda, separator, h⟩
  · rintro (⟨⟨lambda, ht⟩, u, hu, separator, hu'⟩ | h)
    · obtain ⟨rest, rfl⟩ := List.head?_eq_some_iff.mp hu
      obtain ⟨p, token⟩ := t
      obtain ⟨q, token'⟩ := u
      cases ht
      cases hu'
      exact ⟨p, q, lambda, separator, [], rest, rfl⟩
    · exact h.mono (List.infix_cons List.infix_rfl)

theorem bindsNothing_append (hus : ∀ u ∈ us.head?, ∀ separator, u.value ≠ .separator separator)
    (h : BindsNothing (ts ++ us)) : BindsNothing ts ∨ BindsNothing us := by
  induction ts with
  | nil => exact .inr h
  | cons t ts ih =>
    rcases bindsNothing_cons_iff.mp h with ⟨ht, u, hu, separator, hu'⟩ | h
    · cases ts with
      | nil => exact absurd hu' (hus u hu separator)
      | cons v ts => exact .inl (bindsNothing_cons_iff.mpr (.inl ⟨ht, u, hu, separator, hu'⟩))
    · exact (ih h).imp_left fun h => bindsNothing_cons_iff.mpr (.inr h)

theorem bindsNothing_of_names {names : List (Located String)}
    (h : BindsNothing (names.map Located.token ++ us)) : BindsNothing us := by
  induction names with
  | nil => exact h
  | cons name names ih =>
    rcases bindsNothing_cons_iff.mp h with ⟨⟨lambda, hname⟩, -⟩ | h
    · cases hname
    · exact ih h

end

namespace Phrased

section
variable {least : Nat} {c : Category} {ts : List (Located Token)} {m : Phrase}

theorem exists_first (h : Phrased least c ts m) :
    ∃ t rest, ts = t :: rest ∧ ∀ separator, t.value ≠ .separator separator := by
  induction h with
  | @name occurrence => exact ⟨_, [], rfl, nofun⟩
  | group h ih => exact ⟨_, _, rfl, nofun⟩
  | operand h ih => exact ih
  | argument hf ha ihf iha =>
    obtain ⟨t, rest, rfl, ht⟩ := ihf
    exact ⟨t, _, rfl, ht⟩
  | application h ih => exact ih
  | abstraction h ih => exact ih
  | lastArgument hf ha ihf iha =>
    obtain ⟨t, rest, rfl, ht⟩ := ihf
    exact ⟨t, _, rfl, ht⟩
  | binders hnames h ih => exact ⟨_, _, rfl, nofun⟩

theorem not_bindsNothing_append {d : Category} {us : List (Located Token)} {arg : Phrase}
    (hts : ¬ BindsNothing ts) (hus : ¬ BindsNothing us) (h : Phrased least d us arg) :
    ¬ BindsNothing (ts ++ us) := by
  obtain ⟨u, rest, rfl, hu⟩ := h.exists_first
  intro hboth
  refine (bindsNothing_append ?_ hboth).elim hts hus
  rintro _ ⟨⟩
  exact hu

theorem not_bindsNothing (h : Phrased 1 c ts m) : ¬ BindsNothing ts := by
  induction h with
  | name => simp [bindsNothing_cons_iff, not_bindsNothing_nil]
  | @group p q ts m h ih =>
    intro hbinds
    have hlast : ¬ BindsNothing [⟨q, .closing⟩] := by
      simp [bindsNothing_cons_iff, not_bindsNothing_nil]
    rcases bindsNothing_cons_iff.mp hbinds with ⟨⟨lambda, h⟩, -⟩ | hbinds
    · cases h
    · refine (bindsNothing_append ?_ hbinds).elim ih hlast
      rintro _ ⟨⟩
      exact nofun
  | operand h ih => exact ih
  | argument hf ha ihf iha => exact not_bindsNothing_append ihf iha ha
  | application h ih => exact ih
  | abstraction h ih => exact ih
  | lastArgument hf ha ihf iha => exact not_bindsNothing_append ihf iha ha
  | @binders p q lambda separator names ts m hnames h ih =>
    intro hbinds
    rcases bindsNothing_cons_iff.mp hbinds with ⟨-, u, hu, separator', hu'⟩ | hbinds
    · obtain ⟨name, names, rfl⟩ := List.exists_cons_of_length_pos hnames
      cases hu
      cases hu'
    · rcases bindsNothing_cons_iff.mp (bindsNothing_of_names hbinds) with ⟨⟨lambda, h⟩, -⟩ | h
      · cases h
      · exact ih h

theorem of_not_bindsNothing (h : Phrased 0 c ts m) (hts : ¬ BindsNothing ts) :
    Phrased 1 c ts m := by
  induction h with
  | name => exact .name
  | group h ih =>
    refine .group (ih fun hbinds => hts (hbinds.mono ?_))
    exact (List.infix_cons List.infix_rfl).trans (List.prefix_append _ _).isInfix
  | operand h ih => exact .operand (ih hts)
  | argument hf ha ihf iha =>
    exact .argument (ihf fun h => hts (h.mono (List.prefix_append _ _).isInfix))
      (iha fun h => hts (h.mono (List.suffix_append _ _).isInfix))
  | application h ih => exact .application (ih hts)
  | abstraction h ih => exact .abstraction (ih hts)
  | lastArgument hf ha ihf iha =>
    exact .lastArgument (ihf fun h => hts (h.mono (List.prefix_append _ _).isInfix))
      (iha fun h => hts (h.mono (List.suffix_append _ _).isInfix))
  | @binders p q lambda separator names ts m hnames h ih =>
    cases names with
    | nil => exact absurd ⟨p, q, lambda, separator, [], ts, rfl⟩ hts
    | cons name names =>
      refine .binders (Nat.le_add_left _ _) (ih fun hbinds => hts (hbinds.mono ?_))
      exact (List.infix_cons List.infix_rfl).trans (List.suffix_append _ _).isInfix

end

end Phrased

section
variable {file source : String} {t : Term}

/-- An accepted program is in the grammar. Its lists of binders have names exactly if no separator
directly follows a lambda. -/
theorem parse_documented_iff (h : parse file source = .ok (.ok t)) :
    ∃ ts, Spells .start source.toList ts ∧ (∃ m, Phrased 0 .term ts m) ∧
      ((∃ m, Phrased 1 .term ts m) ↔ ¬ BindsNothing ts) := by
  obtain ⟨-, ts, m, hts, hm⟩ := exists_phrased_of_parse h
  refine ⟨ts, hts, ⟨m, hm⟩, ?_, fun hnames => ⟨m, hm.of_not_bindsNothing hnames⟩⟩
  rintro ⟨m', hm'⟩
  exact hm'.not_bindsNothing

end

theorem parse_documented_iff_one_name :
    parse "one" "\\x. x" = .ok (.ok (.var 1 0)) ∧
      ∃ ts m, Spells .start "\\x. x".toList ts ∧ Phrased 1 .term ts m := by
  have hparse : parse "one" "\\x. x" = .ok (.ok (.var 1 0)) := rfl
  obtain ⟨ts, hts, -, hnames⟩ := parse_documented_iff hparse
  have htokens : ts = [⟨⟨1, 1⟩, .lambda '\\'⟩, ⟨⟨1, 2⟩, .name "x"⟩, ⟨⟨1, 3⟩, .separator '.'⟩,
      ⟨⟨1, 5⟩, .name "x"⟩] := (Scan.tokens_ofString hts).symm
  obtain ⟨m, hm⟩ := hnames.mpr <| by
    rw [htokens]
    simp [bindsNothing_cons_iff, not_bindsNothing_nil]
  exact ⟨hparse, ts, m, hts, hm⟩

theorem parse_accepts_empty_binders :
    parse "prog" "\\. \\x. x" = .ok (.ok (.var 1 0)) ∧
      ∀ ts, Spells .start "\\. \\x. x".toList ts → ¬ ∃ m, Phrased 1 .term ts m := by
  refine ⟨rfl, ?_⟩
  rintro ts hts ⟨m, hm⟩
  have htokens : ts = ⟨⟨1, 1⟩, .lambda '\\'⟩ :: ⟨⟨1, 2⟩, .separator '.'⟩ :: ts.drop 2 := by
    rw [← Scan.tokens_ofString hts]
    rfl
  exact hm.not_bindsNothing ⟨_, _, _, _, [], _, htokens.symm⟩

end WeakHead
