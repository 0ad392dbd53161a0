import WeakHead.Proofs.Grammar

/-!
# Phrases

A phrase is a named term as it is written, with its lists of binders and with
the place of every name. The grammar says which tokens a phrase is written
with; without the places these are the tokens of its named term. A name that
nothing around it binds is unknown, and a phrase without unknown names has a
nameless term.
-/

namespace WeakHead

inductive Phrase where
  | name (occurrence : Located String)
  | apply (func arg : Phrase)
  | abstraction (names : List (Located String)) (body : Phrase)
  deriving DecidableEq, Repr

namespace Phrase

def named : Phrase → Named
  | .name occurrence => .name occurrence.value
  | .apply func arg => .apply func.named arg.named
  | .abstraction names body => body.named.lambdas (names.map Located.value)

/-- The names that nothing binds, in the order in which they are written. The names of `scope`
are bound around the phrase. -/
def unknown : List String → Phrase → List (Located String)
  | scope, .name occurrence => if occurrence.value ∈ scope then [] else [occurrence]
  | scope, .apply func arg => func.unknown scope ++ arg.unknown scope
  | scope, .abstraction names body => body.unknown ((names.map Located.value).reverse ++ scope)

end Phrase

def Located.token (name : Located String) : Located Token := ⟨name.position, .name name.value⟩

/-- The grammar: the tokens of each category, with the phrase that they write. A list of binders
has at least `least` names. -/
inductive Phrased (least : Nat) : Category → List (Located Token) → Phrase → Prop
  | name {occurrence : Located String} :
    Phrased least .operand [occurrence.token] (.name occurrence)
  | group {p q : Position} {ts : List (Located Token)} {m : Phrase} (h : Phrased least .term ts m) :
    Phrased least .operand (⟨p, .opening⟩ :: ts ++ [⟨q, .closing⟩]) m
  | operand {ts : List (Located Token)} {m : Phrase} (h : Phrased least .operand ts m) :
    Phrased least .application ts m
  | argument {ts us : List (Located Token)} {func arg : Phrase}
    (hf : Phrased least .application ts func) (ha : Phrased least .operand us arg) :
    Phrased least .application (ts ++ us) (.apply func arg)
  | application {ts : List (Located Token)} {m : Phrase} (h : Phrased least .application ts m) :
    Phrased least .term ts m
  | abstraction {ts : List (Located Token)} {m : Phrase} (h : Phrased least .abstraction ts m) :
    Phrased least .term ts m
  | lastArgument {ts us : List (Located Token)} {func arg : Phrase}
    (hf : Phrased least .application ts func) (ha : Phrased least .abstraction us arg) :
    Phrased least .term (ts ++ us) (.apply func arg)
  | binders {p q : Position} {lambda separator : Char} {names : List (Located String)}
    {ts : List (Located Token)} {m : Phrase} (hnames : least ≤ names.length)
    (h : Phrased least .term ts m) :
    Phrased least .abstraction
      (⟨p, .lambda lambda⟩ :: names.map Located.token ++ ⟨q, .separator separator⟩ :: ts)
      (.abstraction names m)

/-! ## Phrases and named terms -/

theorem map_value_token (names : List (Located String)) :
    (names.map Located.token).map (·.value) = (names.map Located.value).map .name := by
  rw [List.map_map, List.map_map]
  rfl

theorem exists_token_of_map_value {ts : List (Located Token)} {names : List String}
    (h : ts.map (·.value) = names.map .name) :
    ∃ located : List (Located String), ts = located.map Located.token ∧
      located.map Located.value = names := by
  induction names generalizing ts with
  | nil => exact ⟨[], List.map_eq_nil_iff.mp h, rfl⟩
  | cons text names ih =>
    obtain ⟨⟨p, token⟩, ts, rfl, htoken, hts⟩ := List.map_eq_cons_iff.mp h
    obtain ⟨located, rfl, rfl⟩ := ih hts
    cases htoken
    exact ⟨⟨p, text⟩ :: located, rfl, rfl⟩

section
variable {c : Category} {ts : List (Located Token)}

theorem Phrased.derives {least : Nat} {m : Phrase} (h : Phrased least c ts m) :
    Derives c (ts.map (·.value)) m.named := by
  induction h with
  | name => exact .name
  | group h ih =>
    rw [List.map_append, List.map_cons]
    exact .group ih
  | operand h ih => exact .operand ih
  | argument hf ha ihf iha =>
    rw [List.map_append]
    exact .argument ihf iha
  | application h ih => exact .application ih
  | abstraction h ih => exact .abstraction ih
  | lastArgument hf ha ihf iha =>
    rw [List.map_append]
    exact .lastArgument ihf iha
  | binders hnames h ih =>
    rw [List.map_append, List.map_cons, map_value_token, List.map_cons]
    exact .binders ih

theorem Derives.exists_phrased {us : List Token} {m : Named} (h : Derives c us m)
    (hts : ts.map (·.value) = us) : ∃ phrase, Phrased 0 c ts phrase ∧ phrase.named = m := by
  induction h generalizing ts with
  | name =>
    obtain ⟨⟨p, token⟩, rfl, rfl⟩ := List.map_eq_singleton_iff.mp hts
    exact ⟨_, @Phrased.name 0 ⟨p, _⟩, rfl⟩
  | group h ih =>
    obtain ⟨first, last, rfl, hfirst, hlast⟩ := List.map_eq_append_iff.mp hts
    obtain ⟨⟨p, token⟩, ts, rfl, rfl, hinner⟩ := List.map_eq_cons_iff.mp hfirst
    obtain ⟨⟨q, token⟩, rfl, rfl⟩ := List.map_eq_singleton_iff.mp hlast
    obtain ⟨phrase, hphrase, rfl⟩ := ih hinner
    exact ⟨_, .group hphrase, rfl⟩
  | operand h ih =>
    obtain ⟨phrase, hphrase, rfl⟩ := ih hts
    exact ⟨_, .operand hphrase, rfl⟩
  | argument hf ha ihf iha =>
    obtain ⟨ts, ts', rfl, hf, ha⟩ := List.map_eq_append_iff.mp hts
    obtain ⟨func, hfunc, rfl⟩ := ihf hf
    obtain ⟨arg, harg, rfl⟩ := iha ha
    exact ⟨_, .argument hfunc harg, rfl⟩
  | application h ih =>
    obtain ⟨phrase, hphrase, rfl⟩ := ih hts
    exact ⟨_, .application hphrase, rfl⟩
  | abstraction h ih =>
    obtain ⟨phrase, hphrase, rfl⟩ := ih hts
    exact ⟨_, .abstraction hphrase, rfl⟩
  | lastArgument hf ha ihf iha =>
    obtain ⟨ts, ts', rfl, hf, ha⟩ := List.map_eq_append_iff.mp hts
    obtain ⟨func, hfunc, rfl⟩ := ihf hf
    obtain ⟨arg, harg, rfl⟩ := iha ha
    exact ⟨_, .lastArgument hfunc harg, rfl⟩
  | binders h ih =>
    obtain ⟨first, last, rfl, hfirst, hlast⟩ := List.map_eq_append_iff.mp hts
    obtain ⟨⟨p, token⟩, ts, rfl, rfl, hnames⟩ := List.map_eq_cons_iff.mp hfirst
    obtain ⟨⟨q, token⟩, ts', rfl, rfl, hbody⟩ := List.map_eq_cons_iff.mp hlast
    obtain ⟨names, rfl, rfl⟩ := exists_token_of_map_value hnames
    obtain ⟨body, hbody, rfl⟩ := ih hbody
    exact ⟨_, .binders (Nat.zero_le _) hbody, rfl⟩

end

theorem Phrase.unknown_eq_nil_iff {m : Phrase} {scope : List String} :
    m.unknown scope = [] ↔ ∃ l, m.named.nameless scope = some l := by
  induction m generalizing scope with
  | name occurrence =>
    rw [unknown, named, Named.nameless]
    by_cases h : occurrence.value ∈ scope
    · obtain ⟨index, hindex⟩ := Option.isSome_iff_exists.mp (List.isSome_idxOf?.mpr h)
      simp [h, hindex]
    · simp [h, List.idxOf?_eq_none_iff.mpr h]
  | apply func arg ihf iha =>
    rw [unknown, List.append_eq_nil_iff, ihf, iha]
    constructor
    · rintro ⟨⟨f, hf⟩, a, ha⟩
      exact ⟨_, Named.nameless_apply_eq_some_iff.mpr ⟨f, a, hf, ha, rfl⟩⟩
    · rintro ⟨l, hl⟩
      obtain ⟨f, a, hf, ha, -⟩ := Named.nameless_apply_eq_some_iff.mp hl
      exact ⟨⟨f, hf⟩, a, ha⟩
  | abstraction names body ih =>
    rw [unknown, ih, named, Named.nameless_lambdas]
    constructor
    · rintro ⟨l, hl⟩
      exact ⟨_, Option.map_eq_some_iff.mpr ⟨l, hl, rfl⟩⟩
    · rintro ⟨l, hl⟩
      obtain ⟨l', hl', -⟩ := Option.map_eq_some_iff.mp hl
      exact ⟨l', hl'⟩

end WeakHead
