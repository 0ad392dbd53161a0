import WeakHead.Proofs.Slotwise
import WeakHead.Term

/-!
# Instantiation with two stacks

Instantiation as a loop: what is still to be visited or rebuilt lies on one
stack, what is done on another. There is no result if a difference is below
zero, a value is not there or a child is missing on the stack. The loop runs
into that only where instantiation fails.
-/

namespace WeakHead

namespace Slotwise

inductive Task where
  | visit (t : Term) (outer : UInt32)
  | rebuild (binders : UInt32)

def visits : Term → Nat
  | .var _ _ => 1
  | .atom _ _ => 1
  | .app _ _ func arg => visits func + visits arg + 2

def Task.weight : Task → Nat
  | .visit t _ => visits t
  | .rebuild _ => 1

def minusWord (a b : UInt32) : Option UInt32 := if b ≤ a then some (a - b) else none

section
variable (values : Array Term)

def replace (depth binders index : UInt32) : Option Term := do
  let count := values.size.toUInt32
  if index < depth then return .var binders index
  else
    let k ← minusWord index depth
    if k < count then
      let value ← values[k.toNat]?
      (value.addBinders binders).toOption
    else return .var binders (← minusWord index count)

def walk : List Task → List Term → Option (List Term)
  | [], done => some done
  | .visit (.var binders index) outer :: tasks, done => do
    let depth ← (Word.add .tooDeep outer binders).toOption
    let u ← replace values depth binders index
    walk tasks (u :: done)
  | .visit (.atom binders id) outer :: tasks, done => do
    let _ ← (Word.add .tooDeep outer binders).toOption
    walk tasks (.atom binders id :: done)
  | .visit (.app binders range func arg) outer :: tasks, done => do
    let depth ← (Word.add .tooDeep outer binders).toOption
    if range ≤ depth then walk tasks (.app binders range func arg :: done)
    else walk (.visit func depth :: .visit arg depth :: .rebuild binders :: tasks) done
  | .rebuild binders :: tasks, arg :: func :: done =>
    walk tasks ((func.apply arg).withBinders binders :: done)
  | .rebuild _ :: _, _ => none
termination_by tasks => (tasks.map Task.weight).foldr (· + ·) 0
decreasing_by
  all_goals
    simp only [List.map_cons, List.foldr_cons, Task.weight, visits]
    omega

def instantiate (t : Term) : Option Term := do
  match ← walk values [.visit t 0] [] with
  | [u] => return u
  | _ => none

end

section
variable {values : Array Term} {t u : Term} (hsize : values.size < UInt32.size)

include hsize

theorem replace_eq {outer binders index depth : UInt32}
    (hd : Word.add .tooDeep outer binders = .ok depth) : replace values depth binders index =
      ((Term.var binders index).instantiateUnder values outer).toOption := by
  have hcount : values.size.toUInt32.toNat = values.size := UInt32.toNat_ofNat_of_lt' hsize
  rw [Term.instantiateUnder, hd]
  show _ = (if index < depth then _ else _ : Checked Term).toOption
  unfold replace
  by_cases hlt : index < depth
  · rw [if_pos hlt, if_pos hlt]
    rfl
  have hle : depth ≤ index := UInt32.not_lt.mp hlt
  rw [if_neg hlt, if_neg hlt, minusWord, if_pos hle]
  show (if index - depth < values.size.toUInt32 then _ else _) = _
  cases hk : values[(index - depth).toNat]? with
  | some value =>
    have hin : index - depth < values.size.toUInt32 := by
      rw [UInt32.lt_iff_toNat_lt, hcount]
      exact (Array.getElem?_eq_some_iff.mp hk).1
    rw [if_pos hin]
    rfl
  | none =>
    have hout : values.size ≤ (index - depth).toNat := Array.getElem?_eq_none_iff.mp hk
    have hnot : ¬ index - depth < values.size.toUInt32 := by
      rw [UInt32.lt_iff_toNat_lt, hcount]
      omega
    have hcountle : values.size.toUInt32 ≤ index := by
      rw [UInt32.toNat_sub_of_le _ _ hle] at hout
      rw [UInt32.le_iff_toNat_le, hcount]
      omega
    rw [if_neg hnot, minusWord, if_pos hcountle]
    rfl

/-- A visit leaves the instantiated term on the stack and nothing else to do, and if there is no
such term the loop has no result. -/
theorem walk_visit {outer : UInt32} (tasks : List Task) (done : List Term) :
    walk values (.visit t outer :: tasks) done =
      (t.instantiateUnder values outer).toOption.bind fun u => walk values tasks (u :: done) := by
  induction t generalizing outer tasks done with
  | var binders index =>
    rw [walk]
    cases hd : Word.add .tooDeep outer binders with
    | error fault =>
      rw [Term.instantiateUnder, hd]
      rfl
    | ok depth => exact congrArg (Option.bind · _) (replace_eq hsize hd)
  | atom binders id =>
    rw [walk, Term.instantiateUnder]
    cases Word.add .tooDeep outer binders <;> rfl
  | app binders range func arg ihf iha =>
    rw [walk, Term.instantiateUnder]
    cases Word.add .tooDeep outer binders with
    | error fault => rfl
    | ok depth =>
      show (if range ≤ depth then _ else _) =
        (if range ≤ depth then _ else _ : Checked Term).toOption.bind _
      by_cases hrange : range ≤ depth
      · rw [if_pos hrange, if_pos hrange]
        rfl
      · rw [if_neg hrange, if_neg hrange, ihf]
        cases func.instantiateUnder values depth with
        | error fault => rfl
        | ok func' =>
          show walk values (.visit arg depth :: _) _ = _
          rw [iha]
          cases arg.instantiateUnder values depth with
          | error fault => rfl
          | ok arg' =>
            show walk values (.rebuild binders :: tasks) (arg' :: func' :: done) = _
            rw [walk]
            rfl

theorem instantiate_eq_toOption : instantiate values t = (t.instantiate values).toOption := by
  rw [instantiate, walk_visit hsize, Term.instantiate]
  cases t.instantiateUnder values 0 with
  | error fault => rfl
  | ok u =>
    show (walk values [] [u]).bind _ = some u
    rw [walk]
    rfl

theorem instantiate_eq_some (h : t.instantiate values = .ok u) : instantiate values t = some u := by
  rw [instantiate_eq_toOption hsize, h]
  rfl

end

end Slotwise

end WeakHead
