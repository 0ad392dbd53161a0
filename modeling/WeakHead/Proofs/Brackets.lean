/-!
# Brackets

Two brackets of a list belong together if what is between them is balanced. So
a closing bracket belongs to the last opening one before it that is still open;
how many are open is a count that goes up and down along the list.
-/

namespace WeakHead

inductive Bracket where
  | opening
  | closing
  deriving DecidableEq, Repr

section
variable {α : Type} (kind : α → Option Bracket)

inductive Balanced : List α → Prop
  | nil : Balanced []
  | other {a : α} {as : List α} (ha : kind a = none) (h : Balanced as) : Balanced (a :: as)
  | pair {a b : α} {inner rest : List α} (ha : kind a = some .opening)
    (hb : kind b = some .closing) (hinner : Balanced inner) (hrest : Balanced rest) :
    Balanced (a :: (inner ++ b :: rest))

/-- A closing bracket behind the list would belong to an opening one in it. -/
def HasOpening (before : List α) : Prop :=
  ∃ outer a inner, before = outer ++ a :: inner ∧ kind a = some .opening ∧ Balanced kind inner

/-- An opening bracket before the list would belong to a closing one in it. -/
def HasClosing (after : List α) : Prop :=
  ∃ inner b rest, after = inner ++ b :: rest ∧ kind b = some .closing ∧ Balanced kind inner

def IsLooseClosing (as : List α) (b : α) : Prop :=
  ∃ before after, as = before ++ b :: after ∧ kind b = some .closing ∧ ¬ HasOpening kind before

def IsLooseOpening (as : List α) (a : α) : Prop :=
  ∃ before after, as = before ++ a :: after ∧ kind a = some .opening ∧ ¬ HasClosing kind after

def openBehind (n : Nat) (a : α) : Nat :=
  match kind a with
  | none => n
  | some .opening => n + 1
  | some .closing => n - 1

/-- The closing brackets that belong to no opening one, if `n` brackets are open before the list. -/
def looseClosings : Nat → List α → List α
  | _, [] => []
  | n, a :: as =>
    (if kind a = some .closing ∧ n = 0 then [a] else []) ++ looseClosings (openBehind kind n a) as

end

section
variable {α : Type} {kind : α → Option Bracket} {n : Nat} {a b : α} {as bs : List α}

theorem openBehind_other (ha : kind a = none) (n : Nat) : openBehind kind n a = n := by
  rw [openBehind, ha]

theorem openBehind_opening (ha : kind a = some .opening) (n : Nat) :
    openBehind kind n a = n + 1 := by
  rw [openBehind, ha]

theorem openBehind_closing (ha : kind a = some .closing) (n : Nat) :
    openBehind kind n a = n - 1 := by
  rw [openBehind, ha]

/-! ## Balanced lists -/

namespace Balanced

theorem append (h : Balanced kind as) (h' : Balanced kind bs) : Balanced kind (as ++ bs) := by
  induction h with
  | nil => exact h'
  | other ha h ih => exact .other ha ih
  | pair ha hb hinner hrest ihi ihr =>
    rw [List.cons_append, List.append_assoc]
    exact .pair ha hb hinner ihr

theorem enclose (ha : kind a = some .opening) (hb : kind b = some .closing)
    (h : Balanced kind as) : Balanced kind (a :: (as ++ [b])) :=
  .pair ha hb h .nil

theorem of_forall_none (h : ∀ a ∈ as, kind a = none) : Balanced kind as := by
  induction as with
  | nil => exact .nil
  | cons a as ih =>
    obtain ⟨ha, has⟩ := List.forall_mem_cons.mp h
    exact .other ha (ih has)

theorem foldl_openBehind (h : Balanced kind as) (n : Nat) : as.foldl (openBehind kind) n = n := by
  induction h generalizing n with
  | nil => rfl
  | other ha h ih => rw [List.foldl_cons, openBehind_other ha, ih]
  | pair ha hb hinner hrest ihi ihr =>
    rw [List.foldl_cons, List.foldl_append, List.foldl_cons, ihi, openBehind_opening ha,
      openBehind_closing hb, ihr]
    rfl

end Balanced

/-! ## Opening brackets -/

/-- At least `n` opening brackets of the list have nothing but balanced lists behind them. -/
inductive Nested (kind : α → Option Bracket) : Nat → List α → Prop
  | all {as : List α} : Nested kind 0 as
  | opening {n : Nat} {a : α} {outer inner : List α} (h : Nested kind n outer)
    (ha : kind a = some .opening) (hinner : Balanced kind inner) :
    Nested kind (n + 1) (outer ++ a :: inner)

theorem Nested.append_balanced (h : Nested kind n as) (hbs : Balanced kind bs) :
    Nested kind n (as ++ bs) := by
  cases h with
  | all => exact .all
  | opening h ha hinner =>
    rw [List.append_assoc]
    exact .opening h ha (hinner.append hbs)

theorem Nested.concat (h : Nested kind n as) (a : α) :
    Nested kind (openBehind kind n a) (as ++ [a]) := by
  cases hk : kind a with
  | none =>
    rw [openBehind_other hk]
    exact h.append_balanced (.other hk .nil)
  | some bracket =>
    cases bracket with
    | opening =>
      rw [openBehind_opening hk]
      exact .opening h hk .nil
    | closing =>
      rw [openBehind_closing hk]
      cases h with
      | all => exact .all
      | opening h ha hinner =>
        rw [List.append_assoc]
        exact h.append_balanced (.enclose ha hk hinner)

theorem nested_foldl (as : List α) : Nested kind (as.foldl (openBehind kind) 0) as := by
  have hrest : ∀ (bs : List α) (n : Nat) (as : List α), Nested kind n as →
      Nested kind (bs.foldl (openBehind kind) n) (as ++ bs) := by
    intro bs
    induction bs with
    | nil =>
      intro n as h
      rwa [List.append_nil]
    | cons b bs ih =>
      intro n as h
      have hbs := ih _ _ (h.concat b)
      rwa [List.append_assoc] at hbs
  exact hrest as 0 [] .all

theorem hasOpening_iff : HasOpening kind as ↔ as.foldl (openBehind kind) 0 ≠ 0 := by
  constructor
  · rintro ⟨outer, a, inner, rfl, ha, hinner⟩
    rw [List.foldl_append, List.foldl_cons, hinner.foldl_openBehind, openBehind_opening ha]
    exact Nat.succ_ne_zero _
  · intro hne
    have h : Nested kind (as.foldl (openBehind kind) 0) as := nested_foldl as
    generalize as.foldl (openBehind kind) 0 = n at h hne
    cases h with
    | all => exact absurd rfl hne
    | opening h ha hinner => exact ⟨_, _, _, rfl, ha, hinner⟩

/-! ## Closing brackets -/

/-- The list closes `n` brackets and nothing else. -/
inductive Closes (kind : α → Option Bracket) : Nat → List α → Prop
  | balanced {as : List α} (h : Balanced kind as) : Closes kind 0 as
  | closing {n : Nat} {b : α} {inner rest : List α} (hinner : Balanced kind inner)
    (hb : kind b = some .closing) (h : Closes kind n rest) :
    Closes kind (n + 1) (inner ++ b :: rest)

theorem Closes.balanced_append (h : Closes kind n bs) (has : Balanced kind as) :
    Closes kind n (as ++ bs) := by
  cases h with
  | balanced h => exact .balanced (has.append h)
  | closing hinner hb h =>
    rw [← List.append_assoc]
    exact .closing (has.append hinner) hb h

theorem looseClosings_append (n : Nat) (as bs : List α) : looseClosings kind n (as ++ bs) =
    looseClosings kind n as ++ looseClosings kind (as.foldl (openBehind kind) n) bs := by
  induction as generalizing n with
  | nil => rfl
  | cons a as ih =>
    rw [List.cons_append, looseClosings, looseClosings, ih, List.append_assoc]
    rfl

theorem looseClosings_sublist (n : Nat) (as : List α) : (looseClosings kind n as).Sublist as := by
  induction as generalizing n with
  | nil => exact List.Sublist.refl _
  | cons a as ih =>
    rw [looseClosings]
    split
    · exact (ih _).cons_cons a
    · exact (ih _).cons a

theorem mem_looseClosings_iff : b ∈ looseClosings kind n as ↔ ∃ before after,
    as = before ++ b :: after ∧ kind b = some .closing ∧
      before.foldl (openBehind kind) n = 0 := by
  induction as generalizing n with
  | nil => simp [looseClosings]
  | cons a as ih =>
    have hfirst : b ∈ (if kind a = some .closing ∧ n = 0 then [a] else []) ↔
        b = a ∧ kind b = some .closing ∧ n = 0 := by
      by_cases h : kind a = some .closing ∧ n = 0
      · rw [if_pos h, List.mem_singleton]
        exact ⟨fun hb => ⟨hb, hb ▸ h⟩, And.left⟩
      · rw [if_neg h]
        simp only [List.not_mem_nil, false_iff]
        rintro ⟨rfl, hb⟩
        exact h hb
    rw [looseClosings, List.mem_append, hfirst, ih]
    constructor
    · rintro (⟨rfl, hb, hn⟩ | ⟨before, after, rfl, hb, hn⟩)
      · exact ⟨[], as, rfl, hb, hn⟩
      · exact ⟨a :: before, after, rfl, hb, hn⟩
    · rintro ⟨before, after, hsplit, hb, hn⟩
      cases before with
      | nil =>
        obtain ⟨rfl, rfl⟩ := List.cons.inj hsplit
        exact .inl ⟨rfl, hb, hn⟩
      | cons _ before =>
        obtain ⟨rfl, rfl⟩ := List.cons.inj hsplit
        exact .inr ⟨before, after, rfl, hb, hn⟩

theorem Balanced.looseClosings_eq_nil (h : Balanced kind as) (n : Nat) :
    looseClosings kind n as = [] := by
  induction h generalizing n with
  | nil => rfl
  | other ha h ih => simp [looseClosings, ha, ih]
  | pair ha hb hinner hrest ihi ihr =>
    simp [looseClosings, looseClosings_append, ha, hinner.foldl_openBehind, openBehind_opening ha,
      ihi, ihr]

theorem closes_of_looseClosings (hloose : looseClosings kind n as = [])
    (hopen : as.foldl (openBehind kind) n = 0) : Closes kind n as := by
  induction as generalizing n with
  | nil =>
    rw [show n = 0 from hopen]
    exact .balanced .nil
  | cons a as ih =>
    obtain ⟨hfirst, hrest⟩ := List.append_eq_nil_iff.mp hloose
    have h := ih hrest hopen
    cases hk : kind a with
    | none =>
      rw [openBehind_other hk] at h
      exact h.balanced_append (.other hk .nil)
    | some bracket =>
      cases bracket with
      | opening =>
        rw [openBehind_opening hk] at h
        cases h with
        | closing hinner hb h =>
          have hpair := h.balanced_append (.enclose hk hb hinner)
          simpa using hpair
      | closing =>
        cases n with
        | zero =>
          rw [if_pos ⟨hk, rfl⟩] at hfirst
          cases hfirst
        | succ n =>
          rw [openBehind_closing hk] at h
          exact .closing .nil hk h

theorem exists_first_looseClosing (hne : looseClosings kind n as ≠ []) :
    ∃ before b after, as = before ++ b :: after ∧ kind b = some .closing ∧
      before.foldl (openBehind kind) n = 0 ∧ looseClosings kind n before = [] := by
  induction as generalizing n with
  | nil => exact absurd rfl hne
  | cons a as ih =>
    by_cases h : kind a = some .closing ∧ n = 0
    · exact ⟨[], a, as, rfl, h.1, h.2, rfl⟩
    · rw [looseClosings, if_neg h, List.nil_append] at hne
      obtain ⟨before, b, after, rfl, hb, hopen, hnone⟩ := ih hne
      refine ⟨a :: before, b, after, rfl, hb, hopen, ?_⟩
      rw [looseClosings, if_neg h, List.nil_append, hnone]

theorem hasClosing_iff : HasClosing kind as ↔ looseClosings kind 0 as ≠ [] := by
  constructor
  · rintro ⟨inner, b, rest, hsplit, hb, hinner⟩ hnil
    have hmem := mem_looseClosings_iff.mpr ⟨inner, rest, hsplit, hb, hinner.foldl_openBehind 0⟩
    rw [hnil] at hmem
    cases hmem
  · intro hne
    obtain ⟨before, b, after, rfl, hb, hopen, hnone⟩ := exists_first_looseClosing hne
    cases closes_of_looseClosings hnone hopen with
    | balanced h => exact ⟨before, b, after, rfl, hb, h⟩

/-! ## Brackets that belong to no other -/

theorem foldl_openBehind_add (hloose : looseClosings kind n as = []) (m : Nat) :
    as.foldl (openBehind kind) (m + n) = m + as.foldl (openBehind kind) n := by
  induction as generalizing n with
  | nil => rfl
  | cons a as ih =>
    obtain ⟨hfirst, hrest⟩ := List.append_eq_nil_iff.mp hloose
    have hnext : openBehind kind (m + n) a = m + openBehind kind n a := by
      cases hk : kind a with
      | none => rw [openBehind_other hk, openBehind_other hk]
      | some bracket =>
        cases bracket with
        | opening => rw [openBehind_opening hk, openBehind_opening hk, Nat.add_assoc]
        | closing =>
          have hn : n ≠ 0 := by
            intro hn
            rw [if_pos ⟨hk, hn⟩] at hfirst
            cases hfirst
          rw [openBehind_closing hk, openBehind_closing hk]
          omega
    rw [List.foldl_cons, List.foldl_cons, hnext, ih hrest]

theorem isLooseClosing_iff : IsLooseClosing kind as b ↔ b ∈ looseClosings kind 0 as := by
  rw [mem_looseClosings_iff]
  refine exists_congr fun before => exists_congr fun after => and_congr_right fun _ => ?_
  rw [hasOpening_iff, Decidable.not_not]

theorem exists_isLooseOpening_iff :
    (∃ a, IsLooseOpening kind as a) ↔ as.foldl (openBehind kind) 0 ≠ 0 := by
  constructor
  · rintro ⟨a, before, after, rfl, ha, hnot⟩ hzero
    have hloose : looseClosings kind 0 after = [] :=
      Decidable.of_not_not fun hne => hnot (hasClosing_iff.mpr hne)
    have hopen := foldl_openBehind_add hloose (before.foldl (openBehind kind) 0 + 1)
    rw [List.foldl_append, List.foldl_cons, openBehind_opening ha, hopen] at hzero
    omega
  · intro hne
    obtain ⟨outer, a, inner, rfl, ha, hinner⟩ := hasOpening_iff.mpr hne
    exact ⟨a, outer, inner, rfl, ha, fun h => hasClosing_iff.mp h (hinner.looseClosings_eq_nil 0)⟩

end

end WeakHead
