/-!
# Terms

Terms with fused binders over 32-bit words, what instantiation makes of them,
how they are written, and the atoms that mean something to the machine.
-/

namespace WeakHead

/-!
## Counting in 32-bit words

Binder counts, indices and atom ids are 32-bit words. Adding binders is
checked: a sum that is no word is a fault. The range of loose indices of a
term saturates instead, at the greatest word and at zero.
-/

inductive Fault where
  | tooManyBinders
  | tooDeep
  | spineUnderflow
  deriving DecidableEq, Repr

abbrev Checked := Except Fault

theorem Checked.bind_eq_ok_iff {α β : Type} {x : Checked α} {f : α → Checked β} {b : β} :
    x >>= f = .ok b ↔ ∃ a, x = .ok a ∧ f a = .ok b := by
  cases x with
  | error fault => simp [bind, Except.bind]
  | ok a => simp [bind, Except.bind]

theorem Checked.foldlM_inv {α β : Type} {I : β → Prop} {f : β → α → Checked β} {xs : List α}
    {b b' : β} (hf : ∀ x ∈ xs, ∀ b b', I b → f b x = .ok b' → I b') (hb : I b)
    (h : xs.foldlM f b = .ok b') : I b' := by
  induction xs generalizing b with
  | nil =>
    cases h
    exact hb
  | cons x xs ih =>
    rw [List.foldlM_cons, Checked.bind_eq_ok_iff] at h
    obtain ⟨b₁, hb₁, h⟩ := h
    refine ih ?_ (hf x List.mem_cons_self b b₁ hb hb₁) h
    intro y hy
    exact hf y (List.mem_cons_of_mem _ hy)

namespace Word

def add (fault : Fault) (a b : UInt32) : Checked UInt32 :=
  if a.toNat + b.toNat < UInt32.size then .ok (a + b) else .error fault

def next (a : UInt32) : UInt32 :=
  if a.toNat + 1 < UInt32.size then a + 1 else a

def monus (a b : UInt32) : UInt32 :=
  if b ≤ a then a - b else 0

/-! ### What they say about numbers -/

theorem add_eq_ok_iff {fault : Fault} {a b c : UInt32} :
    add fault a b = .ok c ↔ c.toNat = a.toNat + b.toNat := by
  have hc := c.toNat_lt
  unfold add
  split <;> rename_i h
  · have hab : (a + b).toNat = a.toNat + b.toNat := by
      rw [UInt32.toNat_add]; exact Nat.mod_eq_of_lt h
    simp only [Except.ok.injEq]
    exact ⟨fun e => e ▸ hab, fun e => UInt32.toNat_inj.mp (hab.trans e.symm)⟩
  · simp only [reduceCtorEq, false_iff]
    intro e; exact h (e ▸ hc)

theorem toNat_next (a : UInt32) : (next a).toNat = min (a.toNat + 1) (UInt32.size - 1) := by
  have ha : a.toNat < UInt32.size := a.toNat_lt
  unfold next
  split <;> rename_i h
  · have : (a + 1).toNat = a.toNat + 1 := by
      rw [UInt32.toNat_add]; exact Nat.mod_eq_of_lt h
    omega
  · omega

theorem toNat_monus (a b : UInt32) : (monus a b).toNat = a.toNat - b.toNat := by
  unfold monus
  split <;> rename_i h
  · exact UInt32.toNat_sub_of_le _ _ h
  · rw [UInt32.le_iff_toNat_le] at h
    simp only [UInt32.toNat_zero]
    omega

end Word

/-!
## Terms with fused binders

A term is a variable, an atom or an application below a number of binders:
`λ. λ. t` is one node with two binders, not two nodes. Every application also
carries the range of its loose indices, so that a term says at once how far
it reaches out of itself.
-/

/-- A lambda term in de Bruijn form. Index `0` is the innermost binder, and `range` is one past the
largest index that either child lets out. -/
inductive Term where
  | var (binders index : UInt32)
  | atom (binders id : UInt32)
  | app (binders range : UInt32) (func arg : Term)
  deriving DecidableEq, Repr

namespace Term

def nil : Term := .atom 0 0

instance : Inhabited Term := ⟨nil⟩

def binders : Term → UInt32
  | .var binders _ => binders
  | .atom binders _ => binders
  | .app binders _ _ _ => binders

def withBinders (n : UInt32) : Term → Term
  | .var _ index => .var n index
  | .atom _ id => .atom n id
  | .app _ range func arg => .app n range func arg

def body (t : Term) : Term := t.withBinders 0

def addBinders (n : UInt32) (t : Term) : Checked Term :=
  return t.withBinders (← Word.add .tooManyBinders t.binders n)

/-! ### Reach -/

/-- One past the largest index that refers outside the term, `0` if there is none. Index
`2 ^ 32 - 1` counts like the one before it. -/
def looseRange : Term → UInt32
  | .var binders index => Word.monus (Word.next index) binders
  | .atom _ _ => 0
  | .app binders range _ _ => Word.monus range binders

def isClosed (t : Term) : Bool := t.looseRange == 0

def apply (func arg : Term) : Term :=
  .app 0 (max func.looseRange arg.looseRange) func arg

def rangesBefore (tail : List UInt32) : Term → List UInt32
  | .var _ _ => tail
  | .atom _ _ => tail
  | .app _ range func arg => range :: func.rangesBefore (arg.rangesBefore tail)

def ranges (t : Term) : List UInt32 := t.rangesBefore []

/-! ### Binders -/

@[simp] theorem binders_withBinders (n : UInt32) (t : Term) : (t.withBinders n).binders = n := by
  cases t <;> rfl

@[simp] theorem withBinders_binders (t : Term) : t.withBinders t.binders = t := by
  cases t <;> rfl

@[simp] theorem withBinders_withBinders (m n : UInt32) (t : Term) :
    (t.withBinders m).withBinders n = t.withBinders n := by
  cases t <;> rfl

theorem addBinders_eq_ok_iff {n : UInt32} {t u : Term} :
    t.addBinders n = .ok u ↔
      u.binders.toNat = t.binders.toNat + n.toNat ∧ u = t.withBinders u.binders := by
  unfold addBinders
  cases h : Word.add .tooManyBinders t.binders n with
  | error fault =>
    simp only [bind, Except.bind, reduceCtorEq, false_iff, not_and]
    intro e
    rw [Word.add_eq_ok_iff.mpr e] at h
    cases h
  | ok m =>
    have hm := Word.add_eq_ok_iff.mp h
    simp only [bind, Except.bind, pure, Except.pure, Except.ok.injEq]
    constructor
    · rintro rfl
      simp [hm]
    · rintro ⟨e, hu⟩
      have : m = u.binders := UInt32.toNat_inj.mp (hm.trans e.symm)
      rw [this]; exact hu.symm

end Term

/-!
## Instantiation

`t.instantiate values` puts values in place of the innermost indices that `t`
lets out, all at once, and lowers the other loose indices past the binders
that are gone. A value goes in as it is, below the binders of the variable
that it replaces: it is meant to be closed. An application that reaches no
replaced index comes back as the same term.
-/

namespace Term

def instantiateUnder (values : Array Term) : UInt32 → Term → Checked Term
  | outer, .var binders index => do
    let depth ← Word.add .tooDeep outer binders
    if index < depth then
      return .var binders index
    else match values[(index - depth).toNat]? with
      | some value => value.addBinders binders
      | none => return .var binders (index - values.size.toUInt32)
  | outer, .atom binders id => do
    let _ ← Word.add .tooDeep outer binders
    return .atom binders id
  | outer, .app binders range func arg => do
    let depth ← Word.add .tooDeep outer binders
    if range ≤ depth then
      return .app binders range func arg
    else
      let func ← instantiateUnder values depth func
      let arg ← instantiateUnder values depth arg
      return (func.apply arg).withBinders binders

def instantiate (t : Term) (values : Array Term) : Checked Term :=
  t.instantiateUnder values 0

end Term

/-!
## Written form of terms

Index `k` is written `#k` and atom `id` is written `!id`; one binder is `lam`
and several are `lam[n]`; application is juxtaposition. An abstraction reaches
as far to the right as it can, so it needs parentheses only where something
follows it. An application needs them only as an argument.
-/

namespace Term

def lambdaSign (n : UInt32) : String :=
  if n = 0 then ""
  else if n = 1 then "lam "
  else s!"lam[{n.toNat.repr}] "

/-- Writes a term after `text`. It is `followed` if it is a function or if another argument comes
after it inside the same parentheses, and it may be an `argument`. -/
def renderAfter (followed argument : Bool) (text : String) : Term → String
  | .var binders index =>
    let written := lambdaSign binders ++ "#" ++ index.toNat.repr
    if followed && binders != 0 then text ++ "(" ++ written ++ ")" else text ++ written
  | .atom binders id =>
    let written := lambdaSign binders ++ "!" ++ id.toNat.repr
    if followed && binders != 0 then text ++ "(" ++ written ++ ")" else text ++ written
  | .app binders _ func arg =>
    let bare := binders == 0
    let enclosed := if bare then argument else followed
    let text := if enclosed then text ++ "(" else text
    let text := func.renderAfter true false (text ++ lambdaSign binders)
    let text := arg.renderAfter (bare && !enclosed && followed) true (text ++ " ")
    if enclosed then text ++ ")" else text

def render (t : Term) : String := t.renderAfter false false ""

end Term

/-!
## Bit operations

Three atoms do something when they reach the head of a program: one reads a
bit of the input, two write a bit of the output.
-/

inductive BitOp where
  | read
  | write (bit : Bool)
  deriving DecidableEq, Repr

namespace BitOp

def atomId : BitOp → UInt32
  | .read => 1
  | .write false => 2
  | .write true => 3

def ofAtomId? : UInt32 → Option BitOp
  | 1 => some .read
  | 2 => some (.write false)
  | 3 => some (.write true)
  | _ => none

theorem ofAtomId?_eq_some_iff {id : UInt32} {op : BitOp} :
    ofAtomId? id = some op ↔ id = op.atomId := by
  constructor
  · unfold ofAtomId?
    split <;> simp only [Option.some.injEq, reduceCtorEq, false_implies] <;> rintro rfl <;> rfl
  · rintro rfl
    cases op with
    | read => rfl
    | write bit => cases bit <;> rfl

end BitOp

/-- The Church boolean of a bit: `λ. λ. 1` if it is set, `λ. λ. 0` if it is not. -/
def Term.ofBit (bit : Bool) : Term := .var 2 (if bit then 1 else 0)

end WeakHead
