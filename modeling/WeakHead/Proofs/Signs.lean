import WeakHead.Term

/-!
# Signs of the written form

A written term is a list of signs. Each kind of sign begins with a character
of its own and no digit follows a number, so a text falls into signs in at
most one way.
-/

namespace WeakHead

inductive Sign where
  | opening
  | closing
  | blank
  | lambda (binders : UInt32)
  | var (index : UInt32)
  | atom (id : UInt32)
  deriving DecidableEq, Repr

namespace Sign

def digits (n : UInt32) : List Char := Nat.toDigits 10 n.toNat

def text : Sign → List Char
  | opening => ['(']
  | closing => [')']
  | blank => [' ']
  | lambda binders => (Term.lambdaSign binders).toList
  | var index => '#' :: digits index
  | atom id => '!' :: digits id

def initial : Sign → Char
  | opening => '('
  | closing => ')'
  | blank => ' '
  | lambda _ => 'l'
  | var _ => '#'
  | atom _ => '!'

/-- No sign stands for no binders. -/
def Proper : Sign → Prop
  | lambda binders => binders ≠ 0
  | _ => True

/-! ## Signs in a text -/

theorem toList_repr (n : UInt32) : n.toNat.repr.toList = digits n := by
  rw [Nat.repr_eq_ofList_toDigits, String.toList_ofList]
  rfl

theorem digits_inj {m n : UInt32} (h : digits m = digits n) : m = n := by
  have hvalue := congrArg (Nat.ofDigitChars 10 · 0) h
  unfold digits at hvalue
  simp only [Nat.ofDigitChars_ten_toDigits] at hvalue
  exact UInt32.toNat_inj.mp hvalue

theorem isDigit_of_mem_digits {n : UInt32} {c : Char} (h : c ∈ digits n) : c.isDigit = true :=
  Nat.isDigit_of_mem_toDigits (by decide) (by decide) h

theorem digits_append_inj {m n : UInt32} {cs ds : List Char}
    (hc : ∀ c ∈ cs.head?, c.isDigit = false) (hd : ∀ c ∈ ds.head?, c.isDigit = false)
    (h : digits m ++ cs = digits n ++ ds) : m = n ∧ cs = ds := by
  have hend : ∀ {cs : List Char}, (∀ c ∈ cs.head?, c.isDigit = false) →
      cs.takeWhile Char.isDigit = [] := by
    intro cs hcs
    cases cs with
    | nil => rfl
    | cons c cs => rw [List.takeWhile_cons, hcs c rfl]; rfl
  have htake := congrArg (List.takeWhile Char.isDigit) h
  rw [List.takeWhile_append_of_pos fun _ => isDigit_of_mem_digits,
    List.takeWhile_append_of_pos fun _ => isDigit_of_mem_digits, hend hc, hend hd,
    List.append_nil, List.append_nil] at htake
  refine ⟨digits_inj htake, ?_⟩
  rw [htake] at h
  exact List.append_cancel_left h

theorem text_lambda (binders : UInt32) : (lambda binders).text =
    if binders = 0 then []
    else if binders = 1 then ['l', 'a', 'm', ' ']
    else 'l' :: 'a' :: 'm' :: '[' :: (digits binders ++ [']', ' ']) := by
  show (Term.lambdaSign binders).toList = _
  unfold Term.lambdaSign
  by_cases h0 : binders = 0
  · rw [if_pos h0, if_pos h0]
    rfl
  rw [if_neg h0, if_neg h0]
  by_cases h1 : binders = 1
  · rw [if_pos h1, if_pos h1]
    rfl
  · rw [if_neg h1, if_neg h1, ← toList_repr]
    show ("lam[" ++ binders.toNat.repr ++ "] ").toList = _
    simp

theorem text_eq_cons {s : Sign} (h : s.Proper) : ∃ cs, s.text = s.initial :: cs := by
  cases s with
  | opening => exact ⟨_, rfl⟩
  | closing => exact ⟨_, rfl⟩
  | blank => exact ⟨_, rfl⟩
  | var => exact ⟨_, rfl⟩
  | atom => exact ⟨_, rfl⟩
  | lambda binders =>
    rw [text_lambda, if_neg h]
    by_cases h1 : binders = 1
    · rw [if_pos h1]
      exact ⟨_, rfl⟩
    · rw [if_neg h1]
      exact ⟨_, rfl⟩

theorem isDigit_initial (s : Sign) : s.initial.isDigit = false := by
  cases s <;> rfl

theorem text_append_inj {s s' : Sign} (hs : s.Proper) (hs' : s'.Proper) {cs ds : List Char}
    (hc : ∀ c ∈ cs.head?, c.isDigit = false) (hd : ∀ c ∈ ds.head?, c.isDigit = false)
    (h : s.text ++ cs = s'.text ++ ds) : s = s' ∧ cs = ds := by
  have hlambda : ∀ {b b' : UInt32}, b ≠ 0 → b' ≠ 0 →
      (lambda b).text ++ cs = (lambda b').text ++ ds → b = b' ∧ cs = ds := by
    intro b b' hb hb' h
    rw [text_lambda, text_lambda, if_neg hb, if_neg hb'] at h
    by_cases h1 : b = 1
    · by_cases h1' : b' = 1
      · rw [if_pos h1, if_pos h1'] at h
        exact ⟨h1.trans h1'.symm, List.append_cancel_left h⟩
      · rw [if_pos h1, if_neg h1'] at h
        simp at h
    · by_cases h1' : b' = 1
      · rw [if_neg h1, if_pos h1'] at h
        simp at h
      · rw [if_neg h1, if_neg h1'] at h
        simp only [List.cons_append, List.append_assoc, List.cons.injEq, true_and] at h
        obtain ⟨hbinders, hrest⟩ := digits_append_inj (by simp) (by simp) h
        exact ⟨hbinders, by simpa using hrest⟩
  have hinitial : s.initial = s'.initial := by
    obtain ⟨_, hcs⟩ := text_eq_cons hs
    obtain ⟨_, hds⟩ := text_eq_cons hs'
    rw [hcs, hds] at h
    exact (List.cons.inj h).1
  -- signs of different kinds begin with different characters
  cases s <;> cases s' <;> simp only [initial, Char.reduceEq] at hinitial
  case lambda.lambda b b' =>
    obtain ⟨rfl, hrest⟩ := hlambda hs hs' h
    exact ⟨rfl, hrest⟩
  case var.var index index' =>
    obtain ⟨rfl, hrest⟩ := digits_append_inj hc hd (List.cons.inj h).2
    exact ⟨rfl, hrest⟩
  case atom.atom id id' =>
    obtain ⟨rfl, hrest⟩ := digits_append_inj hc hd (List.cons.inj h).2
    exact ⟨rfl, hrest⟩
  all_goals exact ⟨rfl, (List.cons.inj h).2⟩

theorem head?_flatMap_text {ss : List Sign} (h : ∀ s ∈ ss, s.Proper) :
    ∀ c ∈ (ss.flatMap text).head?, c.isDigit = false := by
  intro c hc
  cases ss with
  | nil => cases hc
  | cons s ss =>
    obtain ⟨cs, hcs⟩ := text_eq_cons (h s List.mem_cons_self)
    rw [List.flatMap_cons, hcs] at hc
    cases hc
    exact isDigit_initial s

theorem flatMap_text_inj {ss ss' : List Sign} (h : ∀ s ∈ ss, s.Proper) (h' : ∀ s ∈ ss', s.Proper)
    (heq : ss.flatMap text = ss'.flatMap text) : ss = ss' := by
  induction ss generalizing ss' with
  | nil =>
    cases ss' with
    | nil => rfl
    | cons s' ss' =>
      obtain ⟨cs, hcs⟩ := text_eq_cons (h' s' List.mem_cons_self)
      rw [List.flatMap_cons, hcs] at heq
      cases heq
  | cons s ss ih =>
    cases ss' with
    | nil =>
      obtain ⟨cs, hcs⟩ := text_eq_cons (h s List.mem_cons_self)
      rw [List.flatMap_cons, hcs] at heq
      cases heq
    | cons s' ss' =>
      obtain ⟨hs, hss⟩ := List.forall_mem_cons.mp h
      obtain ⟨hs', hss'⟩ := List.forall_mem_cons.mp h'
      rw [List.flatMap_cons, List.flatMap_cons] at heq
      obtain ⟨rfl, hrest⟩ := text_append_inj hs hs' (head?_flatMap_text hss)
        (head?_flatMap_text hss') heq
      rw [ih hss hss' hrest]

end Sign

end WeakHead
