import WeakHead.Proofs.WrittenForm

/-!
# Rendering with a stack

Rendering as a loop: what is still to be written lies on a stack, terms with
flags for the place where they stand, between them pieces of text. Whatever else
is on the stack, a term is written as by its recursive rules, so that the loop
writes the same text; and every parenthesis in it has its partner.
-/

namespace WeakHead

namespace RenderLoop

def functionFlag : UInt8 := 1

def argumentFlag : UInt8 := 2

def isFunction (flags : UInt8) : Bool := flags &&& functionFlag != 0

def isArgument (flags : UInt8) : Bool := flags &&& argumentFlag != 0

inductive Task where
  | term (t : Term) (flags : UInt8)
  | payload (t : Term) (flags : UInt8)
  | print (text : String)

def cost : Term → Nat
  | .var _ _ => 1
  | .atom _ _ => 1
  | .app _ _ func arg => cost func + cost arg + 7

def Task.weight : Task → Nat
  | .term t _ => cost t + 2
  | .payload t _ => cost t
  | .print _ => 1

def lambdas (binders : UInt32) : String :=
  if binders = 1 then "lam " else "lam[" ++ binders.toNat.repr ++ "] "

def write : List Task → String → String
  | [], text => text
  | .print piece :: tasks, text => write tasks (text ++ piece)
  | .term t flags :: tasks, text =>
    if t.binders = 0 then write (.payload t flags :: tasks) text
    else if isFunction flags then
      write (.payload t 0 :: .print ")" :: tasks) (text ++ "(" ++ lambdas t.binders)
    else write (.payload t 0 :: tasks) (text ++ lambdas t.binders)
  | .payload (.var _ index) _ :: tasks, text => write tasks (text ++ "#" ++ index.toNat.repr)
  | .payload (.atom _ id) _ :: tasks, text => write tasks (text ++ "!" ++ id.toNat.repr)
  | .payload (.app _ _ func arg) flags :: tasks, text =>
    if isArgument flags then
      write (.term func functionFlag :: .print " " :: .term arg argumentFlag :: .print ")" :: tasks)
        (text ++ "(")
    else
      write (.term func functionFlag :: .print " " :: .term arg (flags ||| argumentFlag) :: tasks)
        text
termination_by tasks => (tasks.map Task.weight).foldr (· + ·) 0
decreasing_by
  all_goals
    simp only [List.map_cons, List.foldr_cons, Task.weight, cost]
    omega

def render (t : Term) : String := write [.term t 0] ""

/-! ## Flags -/

theorem isFunction_or (flags : UInt8) : isFunction (flags ||| argumentFlag) = isFunction flags := by
  have h : ∀ b : BitVec 8, (b ||| 2) &&& 1 = b &&& 1 := by decide
  have hflags : (flags ||| argumentFlag) &&& functionFlag = flags &&& functionFlag :=
    UInt8.toBitVec_inj.mp (h flags.toBitVec)
  rw [isFunction, isFunction, hflags]

theorem isArgument_or (flags : UInt8) : isArgument (flags ||| argumentFlag) = true := by
  have h : ∀ b : BitVec 8, (b ||| 2) &&& 2 = 2 := by decide
  have hflags : (flags ||| argumentFlag) &&& argumentFlag = argumentFlag :=
    UInt8.toBitVec_inj.mp (h flags.toBitVec)
  rw [isArgument, hflags]
  rfl

/-! ## The loop -/

def WritesAsRendered (t : Term) : Prop :=
  ∀ flags tasks text, write (.term t flags :: tasks) text =
    write tasks (t.renderAfter (isFunction flags) (isArgument flags) text)

section
variable {t func arg : Term}

theorem lambdas_eq {binders : UInt32} (hb : binders ≠ 0) :
    lambdas binders = Term.lambdaSign binders := by
  rw [Term.lambdaSign, if_neg hb]
  rfl

theorem write_function (hf : WritesAsRendered func) (tasks : List Task) (text : String) :
    write (.term func functionFlag :: .print " " :: tasks) text =
      write tasks (func.renderAfter true false text ++ " ") := by
  rw [hf, write]
  rfl

theorem write_payload_app (hf : WritesAsRendered func) (ha : WritesAsRendered arg)
    (binders range : UInt32) (flags : UInt8) (tasks : List Task) (text : String) :
    write (.payload (.app binders range func arg) flags :: tasks) text = write tasks
      (if isArgument flags then arg.renderAfter false true
          (func.renderAfter true false (text ++ "(") ++ " ") ++ ")"
        else arg.renderAfter (isFunction flags) true (func.renderAfter true false text ++ " ")) := by
  rw [write]
  cases h : isArgument flags with
  | true =>
    rw [if_pos rfl, if_pos rfl, write_function hf, ha, write]
    rfl
  | false =>
    rw [if_neg nofun, if_neg nofun, write_function hf, ha, isFunction_or, isArgument_or]

theorem writesAsRendered_of_payload (h : ∀ flags tasks text,
    write (.payload t flags :: tasks) text =
      write tasks (t.body.renderAfter (isFunction flags) (isArgument flags) text)) :
    WritesAsRendered t := by
  intro flags tasks text
  rw [write]
  by_cases hb : t.binders = 0
  · rw [if_pos hb, h, Term.body_of_binders_eq_zero hb]
  · rw [if_neg hb, Term.renderAfter_of_binders_ne_zero hb, lambdas_eq hb]
    cases isFunction flags with
    | true =>
      rw [if_pos rfl, if_pos rfl, h, write]
      rfl
    | false =>
      rw [if_neg nofun, if_neg nofun, h]
      rfl

theorem writesAsRendered (t : Term) : WritesAsRendered t := by
  induction t with
  | var binders index =>
    refine writesAsRendered_of_payload fun flags tasks text => ?_
    simp [write, Term.body, Term.withBinders, Term.renderAfter, Term.lambdaSign,
      String.append_assoc]
  | atom binders id =>
    refine writesAsRendered_of_payload fun flags tasks text => ?_
    simp [write, Term.body, Term.withBinders, Term.renderAfter, Term.lambdaSign,
      String.append_assoc]
  | app binders range func arg ihf iha =>
    refine writesAsRendered_of_payload fun flags tasks text => ?_
    rw [write_payload_app ihf iha]
    cases isArgument flags <;>
      simp [Term.body, Term.withBinders, Term.renderAfter, Term.lambdaSign]

end

theorem render_eq (t : Term) : render t = t.render := by
  rw [render, writesAsRendered t, write]
  rfl

end RenderLoop

/-! ## Parentheses -/

def bracketOfChar : Char → Option Bracket
  | '(' => some .opening
  | ')' => some .closing
  | _ => none

theorem bracketOfChar_of_isDigit {c : Char} (h : c.isDigit = true) : bracketOfChar c = none := by
  unfold bracketOfChar
  split
  · exact absurd h (by decide)
  · exact absurd h (by decide)
  · rfl

theorem balanced_digits (n : UInt32) : Balanced bracketOfChar (Sign.digits n) :=
  .of_forall_none fun _ hc => bracketOfChar_of_isDigit (Sign.isDigit_of_mem_digits hc)

theorem balanced_lambda (binders : UInt32) :
    Balanced bracketOfChar (Sign.lambda binders).text := by
  rw [Sign.text_lambda]
  split
  · exact .nil
  split
  · exact .other rfl (.other rfl (.other rfl (.other rfl .nil)))
  · refine .other rfl (.other rfl (.other rfl (.other rfl ?_)))
    exact (balanced_digits binders).append (.other rfl (.other rfl .nil))

namespace Term

section
variable {ss : List Sign}

theorem balanced_enclose (enclosed : Bool) (h : Balanced bracketOfChar (ss.flatMap Sign.text)) :
    Balanced bracketOfChar ((enclose enclosed ss).flatMap Sign.text) := by
  unfold enclose
  cases enclosed with
  | false => exact h
  | true =>
    have hpair := Balanced.enclose (show bracketOfChar '(' = _ from rfl)
      (show bracketOfChar ')' = _ from rfl) h
    simpa [Sign.text] using hpair

theorem balanced_lambdaSigns (n : UInt32) (h : Balanced bracketOfChar (ss.flatMap Sign.text)) :
    Balanced bracketOfChar ((lambdaSigns n ++ ss).flatMap Sign.text) := by
  rw [List.flatMap_append]
  refine Balanced.append ?_ h
  unfold lambdaSigns
  split
  · exact .nil
  · rw [List.flatMap_singleton]
    exact balanced_lambda n

end

theorem balanced_signs (t : Term) (followed argument : Bool) :
    Balanced bracketOfChar ((t.signs followed argument).flatMap Sign.text) := by
  induction t generalizing followed argument with
  | var binders index =>
    refine balanced_enclose _ (balanced_lambdaSigns _ ?_)
    rw [List.flatMap_singleton]
    exact .other rfl (balanced_digits index)
  | atom binders id =>
    refine balanced_enclose _ (balanced_lambdaSigns _ ?_)
    rw [List.flatMap_singleton]
    exact .other rfl (balanced_digits id)
  | app binders range func arg ihf iha =>
    refine balanced_enclose _ (balanced_lambdaSigns _ ?_)
    rw [List.flatMap_append, List.flatMap_cons]
    exact (ihf true false).append (.other rfl (iha _ _))

theorem balanced_render (t : Term) : Balanced bracketOfChar t.render.toList := by
  rw [render, toList_renderAfter]
  exact t.balanced_signs false false

/-- The loop, the recursion and the rules of the notation write the same, with all parentheses in
pairs. -/
theorem render_by_rules (t : Term) :
    RenderLoop.render t = t.written ∧ t.render = t.written ∧
      Balanced bracketOfChar t.written.toList := by
  rw [RenderLoop.render_eq, ← render_eq_written]
  exact ⟨rfl, rfl, t.balanced_render⟩

end Term

end WeakHead
