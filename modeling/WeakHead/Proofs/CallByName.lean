import WeakHead.Term
import WeakHead.Proofs.Lambda

/-!
# Call by name, one lambda at a time

The textbook machine on terms with one binder a node. A lambda takes one
argument, the nearest; if there is none it takes the next placeholder. Several
lambdas in a row take as many arguments, and for closed ones that is one
simultaneous substitution.
-/

namespace WeakHead

def Lambda.ofBit (bit : Bool) : Lambda := .lam (.lam (.var (if bit then 1 else 0)))

structure CallByName where
  focus : Lambda
  stack : List Lambda
  fresh : Option UInt32
  written : List Bool
  bitsRead : Nat
  deriving DecidableEq, Repr

namespace CallByName

def start (program : Lambda) : CallByName := ⟨program, [], some 0, [], 0⟩

inductive Outcome where
  | running (s : CallByName)
  | halted (atom : UInt32) (whnf : Lambda) (s : CallByName)
  | stuck
  deriving DecidableEq, Repr

def placeholder (fresh : Option UInt32) : Lambda := .atom (fresh.getD 0)

def take (s : CallByName) (body : Lambda) : CallByName :=
  match s.stack with
  | arg :: rest => { s with focus := body.subst [arg] 0, stack := rest }
  | [] => { s with
      focus := body.subst [placeholder s.fresh] 0
      fresh := s.fresh.map (· + 1) }

def dispatch (input : Nat → Bool) (s : CallByName) (id : UInt32) : Outcome :=
  let arg := s.stack.headD (.atom 0)
  let s := { s with focus := arg, stack := [] }
  match BitOp.ofAtomId? id with
  | some .read => .running { s with
      stack := [.ofBit (input s.bitsRead)]
      fresh := none
      bitsRead := s.bitsRead + 1 }
  | some (.write bit) => .running { s with fresh := none, written := s.written ++ [bit] }
  | none => .halted id arg s

def step (input : Nat → Bool) (s : CallByName) : Outcome :=
  match s.focus with
  | .lam body => .running (s.take body)
  | .app func arg => .running { s with focus := func, stack := arg :: s.stack }
  | .atom id => s.dispatch input id
  | .var _ => .stuck

def run (input : Nat → Bool) : Nat → CallByName → Outcome
  | 0, s => .running s
  | n + 1, s =>
    match s.step input with
    | .running s => run input n s
    | .halted id whnf s => .halted id whnf s
    | .stuck => .stuck

/-! ## Runs in parts -/

section
variable {input : Nat → Bool} {s s' : CallByName}

theorem run_add {m : Nat} (n : Nat) (h : run input m s = .running s') :
    run input (m + n) s = run input n s' := by
  induction m generalizing s with
  | zero =>
    cases h
    rw [Nat.zero_add]
  | succ m ih =>
    rw [Nat.succ_add, run]
    rw [run] at h
    cases hs : s.step input with
    | running s₁ =>
      rw [hs] at h
      exact ih h
    | halted => rw [hs] at h; cases h
    | stuck => rw [hs] at h; cases h

theorem run_succ_of_running (n : Nat) (h : s.step input = .running s') :
    run input (n + 1) s = run input n s' := by
  rw [run, h]

theorem run_of_halted {n : Nat} {id : UInt32} {whnf : Lambda}
    (h : run input n s = .halted id whnf s') (k : Nat) :
    run input (n + k) s = .halted id whnf s' := by
  induction n generalizing s with
  | zero => cases h
  | succ n ih =>
    rw [Nat.succ_add, run]
    rw [run] at h
    cases hs : s.step input with
    | running s₁ =>
      rw [hs] at h
      exact ih h
    | halted =>
      rw [hs] at h
      exact h
    | stuck => rw [hs] at h; cases h

theorem run_of_le {m n : Nat} (hmn : m ≤ n) (h : run input n s = .running s') :
    ∃ t, run input m s = .running t := by
  induction m generalizing n s with
  | zero => exact ⟨s, rfl⟩
  | succ m ih =>
    obtain ⟨n, rfl⟩ : ∃ k, n = k + 1 := ⟨n - 1, by omega⟩
    rw [run] at h ⊢
    cases hs : s.step input with
    | running s₁ =>
      rw [hs] at h
      exact ih (by omega) h
    | halted => rw [hs] at h; cases h
    | stuck => rw [hs] at h; cases h

/-! ## Many lambdas in a row -/

def placeholders : Option UInt32 → Nat → List Lambda
  | _, 0 => []
  | fresh, n + 1 => placeholder fresh :: placeholders (fresh.map (· + 1)) n

theorem length_placeholders (fresh : Option UInt32) (n : Nat) :
    (placeholders fresh n).length = n := by
  induction n generalizing fresh with
  | zero => rfl
  | succ n ih => rw [placeholders, List.length_cons, ih]

def nextArguments (s : CallByName) (n : Nat) : List Lambda :=
  s.stack.take n ++ placeholders s.fresh (n - s.stack.length)

def afterTaking (s : CallByName) (n : Nat) (focus : Lambda) : CallByName :=
  { s with
    focus := focus
    stack := s.stack.drop n
    fresh := s.fresh.map (· + (n - s.stack.length).toUInt32) }

theorem closed_of_mem_placeholders {fresh : Option UInt32} {n : Nat} {v : Lambda}
    (h : v ∈ placeholders fresh n) : v.ScopedUnder 0 := by
  induction n generalizing fresh with
  | zero => cases h
  | succ n ih =>
    rcases List.mem_cons.mp h with rfl | h
    · trivial
    · exact ih h

theorem length_nextArguments (s : CallByName) (n : Nat) : (s.nextArguments n).length = n := by
  rw [nextArguments, List.length_append, List.length_take, length_placeholders]
  omega

theorem closed_of_mem_nextArguments (hs : ∀ v ∈ s.stack, v.ScopedUnder 0) {n : Nat} {v : Lambda}
    (h : v ∈ s.nextArguments n) : v.ScopedUnder 0 := by
  rcases List.mem_append.mp h with h | h
  · exact hs v (List.mem_of_mem_take h)
  · exact closed_of_mem_placeholders h

theorem nextArguments_succ (s : CallByName) (n : Nat) (body : Lambda) :
    ∃ arg, s.nextArguments (n + 1) = arg :: (s.take body).nextArguments n ∧
      (s.take body).focus = body.subst [arg] 0 := by
  rcases s with ⟨focus, stack, fresh, written, bitsRead⟩
  cases stack with
  | nil =>
    refine ⟨placeholder fresh, ?_, rfl⟩
    simp [nextArguments, take, placeholders]
  | cons arg rest =>
    refine ⟨arg, ?_, rfl⟩
    simp [nextArguments, take]

theorem afterTaking_take (s : CallByName) (n : Nat) (body focus : Lambda) :
    (s.take body).afterTaking n focus = s.afterTaking (n + 1) focus := by
  rcases s with ⟨_, stack, fresh, written, bitsRead⟩
  cases stack with
  | nil =>
    -- the ids wrap around, so that they can be advanced in two parts
    have hadd : ∀ next : UInt32, next + 1 + n.toUInt32 = next + (n + 1).toUInt32 := by
      intro next
      rw [UInt32.add_assoc, UInt32.add_comm 1]
      exact congrArg (next + ·) (UInt32.ofNat_add n 1).symm
    cases fresh with
    | none => simp [afterTaking, take]
    | some next => simp [afterTaking, take, hadd]
  | cons arg rest => simp [afterTaking, take]

theorem closed_stack_take (hs : ∀ v ∈ s.stack, v.ScopedUnder 0) (body : Lambda) :
    ∀ v ∈ (s.take body).stack, v.ScopedUnder 0 := by
  rcases s with ⟨_, stack, fresh, written, bitsRead⟩
  cases stack with
  | nil => exact hs
  | cons arg rest => exact fun v hv => hs v (List.mem_cons_of_mem _ hv)

/-- The arguments that are taken one by one are substituted as if all at once. -/
theorem run_lams (hs : ∀ v ∈ s.stack, v.ScopedUnder 0) (n : Nat) (body : Lambda)
    (hf : s.focus = .lams n body) :
    run input n s = .running (s.afterTaking n (body.subst (s.nextArguments n).reverse 0)) := by
  induction n generalizing s body with
  | zero =>
    have hargs : s.nextArguments 0 = [] := List.eq_nil_of_length_eq_zero (length_nextArguments s 0)
    rw [hargs, List.reverse_nil, Lambda.subst_nil, run]
    rcases s with ⟨_, stack, fresh, written, bitsRead⟩
    cases hf
    simp [afterTaking]
  | succ n ih =>
    have hstep : s.step input = .running (s.take (.lams n body)) := by
      rw [step, hf, Lambda.lams]
    obtain ⟨arg, hargs, hfocus⟩ := s.nextArguments_succ n (.lams n body)
    rw [Lambda.subst_lams] at hfocus
    have hclosed := closed_stack_take hs (.lams n body)
    have hlen : ((s.take (.lams n body)).nextArguments n).reverse.length = n := by
      rw [List.length_reverse, length_nextArguments]
    have hall : ∀ v ∈ ((s.take (.lams n body)).nextArguments n).reverse, v.ScopedUnder 0 :=
      fun v hv => closed_of_mem_nextArguments hclosed (List.mem_reverse.mp hv)
    have harg : arg.ScopedUnder 0 :=
      closed_of_mem_nextArguments hs (hargs ▸ List.mem_cons_self)
    have hsubst := Lambda.subst_subst_snoc hall harg body 0
    rw [hlen] at hsubst
    rw [run_succ_of_running n hstep, ih hclosed _ hfocus, afterTaking_take, hsubst, hargs,
      List.reverse_cons]

end

end CallByName

end WeakHead
