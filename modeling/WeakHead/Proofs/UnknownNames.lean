import WeakHead.Proofs.Parsing

/-!
# Unknown names

A text that is written in the grammar can only be wrong about its names. Each
occurrence that no binder around it binds is reported once, at its place, in
the order of the text; the others are not.
-/

namespace WeakHead

/-- The name occurs in the phrase, outside of lists of binders, below binders of these names. -/
inductive Phrase.Occurs : Phrase → List String → Located String → Prop
  | name {n : Located String} : Occurs (.name n) [] n
  | func {f a : Phrase} {bound : List String} {n : Located String} (h : Occurs f bound n) :
    Occurs (.apply f a) bound n
  | arg {f a : Phrase} {bound : List String} {n : Located String} (h : Occurs a bound n) :
    Occurs (.apply f a) bound n
  | body {names : List (Located String)} {m : Phrase} {bound : List String} {n : Located String}
    (h : Occurs m bound n) : Occurs (.abstraction names m) (bound ++ names.map Located.value) n

theorem Phrase.mem_unknown_iff {m : Phrase} {scope : List String} {n : Located String} :
    n ∈ m.unknown scope ↔ ∃ bound, m.Occurs bound n ∧ n.value ∉ bound ++ scope := by
  induction m generalizing scope with
  | name occurrence =>
    have hunknown : n ∈ unknown scope (.name occurrence) ↔
        n = occurrence ∧ occurrence.value ∉ scope := by
      rw [unknown]
      by_cases h : occurrence.value ∈ scope <;> simp [h]
    rw [hunknown]
    constructor
    · rintro ⟨rfl, hn⟩
      exact ⟨[], .name, hn⟩
    · rintro ⟨bound, hoccurs, hn⟩
      cases hoccurs
      exact ⟨rfl, hn⟩
  | apply func arg ihf iha =>
    rw [unknown, List.mem_append, ihf, iha]
    constructor
    · rintro (⟨bound, hoccurs, hn⟩ | ⟨bound, hoccurs, hn⟩)
      · exact ⟨bound, .func hoccurs, hn⟩
      · exact ⟨bound, .arg hoccurs, hn⟩
    · rintro ⟨bound, hoccurs, hn⟩
      cases hoccurs with
      | func h => exact .inl ⟨bound, h, hn⟩
      | arg h => exact .inr ⟨bound, h, hn⟩
  | abstraction names body ih =>
    have hscope : ∀ bound : List String,
        n.value ∉ bound ++ ((names.map Located.value).reverse ++ scope) ↔
          n.value ∉ bound ++ names.map Located.value ++ scope := by
      simp
    rw [unknown, ih]
    constructor
    · rintro ⟨bound, hoccurs, hn⟩
      exact ⟨_, .body hoccurs, (hscope bound).mp hn⟩
    · rintro ⟨bound, hoccurs, hn⟩
      cases hoccurs with
      | body h => exact ⟨_, h, (hscope _).mpr hn⟩

theorem Phrased.unknown_sublist {least : Nat} {c : Category} {ts : List (Located Token)}
    {m : Phrase} (h : Phrased least c ts m) (scope : List String) :
    ((m.unknown scope).map Located.token).Sublist ts := by
  induction h generalizing scope with
  | @name occurrence =>
    rw [Phrase.unknown]
    split
    · exact List.nil_sublist _
    · exact List.Sublist.refl _
  | @group p q ts m h ih =>
    exact (ih scope).trans ((List.sublist_cons_self _ _).trans (List.sublist_append_left _ _))
  | operand h ih => exact ih scope
  | argument hf ha ihf iha =>
    rw [Phrase.unknown, List.map_append]
    exact (ihf scope).append (iha scope)
  | application h ih => exact ih scope
  | abstraction h ih => exact ih scope
  | lastArgument hf ha ihf iha =>
    rw [Phrase.unknown, List.map_append]
    exact (ihf scope).append (iha scope)
  | binders hnames h ih =>
    exact (ih _).trans ((List.sublist_cons_self _ _).trans (List.sublist_append_right _ _))

section
variable {source : String} {ts : List (Located Token)} {m : Phrase}

/-- Unknown names are reported, each of them once and at its place, and nothing else is. -/
theorem unknown_names_are_reported (file : String)
    (hsize : source.utf8ByteSize < UInt32.size - 1) (hts : Spells .start source.toList ts)
    (hm : Phrased 0 .term ts m) :
    ∃ unknown : List (Located String),
      (∀ n, n ∈ unknown ↔ ∃ bound, m.Occurs bound n ∧ n.value ∉ bound) ∧
      (positions unknown).Pairwise (· < ·) ∧
      (∀ n ∈ unknown, ∃ before rest,
        source.toList = before ++ n.value.toList ++ rest ∧ n.position = .behind before) ∧
      (∃ t, examine source =
        .ok (unknown.map fun n => ⟨n.position, .unknownName n.value⟩, some t)) ∧
      (unknown = [] → ∃ t, parse file source = .ok (.ok t)) ∧
      (unknown ≠ [] → parse file source = .ok (.error
        ⟨(unknown.take 100).map fun n =>
            ⟨file, n.position, "Unknown identifier '" ++ n.value ++ "'"⟩,
          unknown.length - 100⟩)) := by
  have hsublist := hm.unknown_sublist []
  obtain ⟨t, -, hexamine⟩ := exists_examine_of_phrased hsize hts.not_isInvalidChar hts hm
  refine ⟨m.unknown [], ?_, ?_, ?_, ⟨t, hexamine⟩, ?_, ?_⟩
  · intro n
    rw [Phrase.mem_unknown_iff]
    simp only [List.append_nil]
  · have htokens := (Scan.marks_tokens source).pairwise
    rw [Scan.tokens_ofString hts] at htokens
    have hpositions := htokens.sublist (hsublist.map (·.position))
    rwa [List.map_map] at hpositions
  · intro n hn
    have htoken := hsublist.subset (List.mem_map_of_mem (f := Located.token) hn)
    obtain ⟨before, rest, hsplit, hplace⟩ := hts.exists_before htoken
    exact ⟨before, rest, hsplit, hplace.trans (Position.foldl_after [] before)⟩
  · intro hnil
    rw [hnil] at hexamine
    exact ⟨t, parse_of_examine hexamine⟩
  · intro hne
    rw [parse_of_examine_ne_nil hexamine (by simpa using hne), Report.ofProblems,
      List.length_map, ← List.map_take, List.map_map]
    rfl

end

theorem unknown_names_are_reported_outside :
    "\\x. b (\\b. b) a".utf8ByteSize < UInt32.size - 1 ∧
      ∃ ts m, Spells .start "\\x. b (\\b. b) a".toList ts ∧ Phrased 0 .term ts m ∧
        ∃ unknown : List (Located String),
          (∀ n, n ∈ unknown ↔ ∃ bound, m.Occurs bound n ∧ n.value ∉ bound) ∧
          unknown.map (·.position) = [⟨1, 5⟩, ⟨1, 15⟩] := by
  -- the first `b` is not below the binder of the second one, and nothing binds `a`
  have hsize : "\\x. b (\\b. b) a".utf8ByteSize < UInt32.size - 1 := by decide
  obtain ⟨ts, hts⟩ := exists_spells "\\x. b (\\b. b) a".toList .start
    (invalid_ofString_eq_empty_iff.mp rfl)
  have htokens : ts = [⟨⟨1, 1⟩, .lambda '\\'⟩, ⟨⟨1, 2⟩, .name "x"⟩, ⟨⟨1, 3⟩, .separator '.'⟩,
      ⟨⟨1, 5⟩, .name "b"⟩, ⟨⟨1, 7⟩, .opening⟩, ⟨⟨1, 8⟩, .lambda '\\'⟩, ⟨⟨1, 9⟩, .name "b"⟩,
      ⟨⟨1, 10⟩, .separator '.'⟩, ⟨⟨1, 12⟩, .name "b"⟩, ⟨⟨1, 13⟩, .closing⟩,
      ⟨⟨1, 15⟩, .name "a"⟩] := (Scan.tokens_ofString hts).symm
  obtain ⟨m, hm⟩ : ∃ m, Phrased 0 .term ts m := by
    have hgroup := @Phrased.group 0 ⟨1, 7⟩ ⟨1, 13⟩ _ _ (.abstraction
      (@Phrased.binders 0 ⟨1, 8⟩ ⟨1, 10⟩ '\\' '.' [⟨⟨1, 9⟩, "b"⟩] _ _ (Nat.zero_le _)
        (.application (.operand (@Phrased.name 0 ⟨⟨1, 12⟩, "b"⟩)))))
    have hbody := Phrased.argument (.argument (.operand (@Phrased.name 0 ⟨⟨1, 5⟩, "b"⟩)) hgroup)
      (@Phrased.name 0 ⟨⟨1, 15⟩, "a"⟩)
    rw [htokens]
    exact ⟨_, .abstraction (@Phrased.binders 0 ⟨1, 1⟩ ⟨1, 3⟩ '\\' '.' [⟨⟨1, 2⟩, "x"⟩] _ _
      (Nat.zero_le _) (.application hbody))⟩
  obtain ⟨unknown, hunknown, -, -, ⟨t, hexamine⟩, -, -⟩ :=
    unknown_names_are_reported "names" hsize hts hm
  refine ⟨hsize, ts, m, hts, hm, unknown, hunknown, ?_⟩
  have hproblems : examine "\\x. b (\\b. b) a" = .ok
      ([⟨⟨1, 5⟩, .unknownName "b"⟩, ⟨⟨1, 15⟩, .unknownName "a"⟩], _) := rfl
  rw [hproblems] at hexamine
  have hplaces := congrArg (List.map (·.position)) (Prod.mk.inj (Except.ok.inj hexamine)).1
  rw [List.map_map] at hplaces
  exact hplaces.symm

end WeakHead
