import WeakHead.Proofs.Brackets
import WeakHead.Proofs.Rendering

/-!
# The written form by its rules

A term is written as a head with arguments, a blank before each argument. Of
these members an abstraction needs parentheses if another one comes after it,
and an application if it has no binders and is an argument. Rendering follows
these rules, and so does a loop that keeps what is still to be written on a
stack.
-/

namespace WeakHead

theorem intercalate_concat (sep text : String) {texts : List String} (hne : texts ≠ []) :
    sep.intercalate (texts ++ [text]) = sep.intercalate texts ++ sep ++ text := by
  have hlists : ∀ (as : List Char) (xss : List (List Char)) (xs : List Char), xss ≠ [] →
      as.intercalate (xss ++ [xs]) = as.intercalate xss ++ as ++ xs := by
    intro as xss xs hne
    induction xss with
    | nil => exact absurd rfl hne
    | cons ys xss ih =>
      cases xss with
      | nil => simp
      | cons zs xss =>
        rw [List.cons_append, List.cons_append, List.intercalate_cons_cons,
          List.intercalate_cons_cons, ← List.cons_append, ih (List.cons_ne_nil _ _)]
        simp
  rw [← String.toList_inj]
  simp only [String.toList_intercalate, String.toList_append, List.map_append, List.map_cons,
    List.map_nil]
  exact hlists _ _ _ (by simpa using hne)

def parenthesize (enclosed : Bool) (text : String) : String :=
  if enclosed then "(" ++ text ++ ")" else text

namespace Term

/-! ## The rules -/

/-- The members of an application: its head and the arguments of the head. An abstraction is a head
itself, and so is a variable or an atom. -/
def spine : Term → List Term
  | .app binders range func arg =>
    if binders = 0 then func.spine ++ [arg] else [.app binders range func arg]
  | t => [t]

def isApplication : Term → Bool
  | .app _ _ _ _ => true
  | _ => false

/-- Whether a member of an application needs parentheses: an abstraction if it is `followed` by
another member, and an application without binders always, since it is an argument. -/
def needsParentheses (followed : Bool) (t : Term) : Bool :=
  if t.binders = 0 then t.isApplication else followed

theorem sizeOf_le_of_mem_spine {t u : Term} (h : u ∈ t.spine) : sizeOf u ≤ sizeOf t := by
  induction t with
  | var => simp_all [spine]
  | atom => simp_all [spine]
  | app binders range func arg ihf iha =>
    rw [spine] at h
    split at h
    · have hsize : sizeOf (app binders range func arg) =
          1 + sizeOf binders + sizeOf range + sizeOf func + sizeOf arg := rfl
      rcases List.mem_append.mp h with hf | ha
      · have := ihf hf
        omega
      · rw [List.mem_singleton.mp ha]
        omega
    · exact Nat.le_of_eq (congrArg sizeOf (List.mem_singleton.mp h))

def written : Term → String
  | .var binders index => lambdaSign binders ++ "#" ++ index.toNat.repr
  | .atom binders id => lambdaSign binders ++ "!" ++ id.toNat.repr
  | .app binders _ func arg =>
    lambdaSign binders ++ " ".intercalate
      (func.spine.attach.map (fun t => parenthesize (t.1.needsParentheses true) t.1.written) ++
        [parenthesize (arg.needsParentheses false) arg.written])
termination_by t => sizeOf t
decreasing_by
  · have := sizeOf_le_of_mem_spine t.2
    simp only [app.sizeOf_spec]
    omega
  · simp only [app.sizeOf_spec]
    omega

section
variable {binders range : UInt32} {func arg : Term}

theorem spine_ne_nil (t : Term) : t.spine ≠ [] := by
  cases t with
  | app binders range func arg =>
    rw [spine]
    split <;> simp
  | _ => simp [spine]

def member (t : Term) : String := parenthesize (t.needsParentheses true) t.written

theorem written_app : (app binders range func arg).written =
    lambdaSign binders ++ " ".intercalate (func.spine.map member) ++ " " ++
      parenthesize (arg.needsParentheses false) arg.written := by
  have hmembers : func.spine.attach.map (fun t => member t.1) = func.spine.map member :=
    List.attach_map_val
  have hne : func.spine.map member ≠ [] := by simpa using func.spine_ne_nil
  rw [written]
  show _ ++ " ".intercalate (func.spine.attach.map (fun t => member t.1) ++ _) = _
  rw [hmembers, intercalate_concat _ _ hne]
  simp only [String.append_assoc]

theorem written_eq (t : Term) : t.written = lambdaSign t.binders ++ t.body.written := by
  cases t with
  | app => simp [body, withBinders, written_app, Term.binders, lambdaSign, String.append_assoc]
  | _ => simp [body, withBinders, written, Term.binders, lambdaSign, String.append_assoc]

/-! ## Rendering by the rules -/

theorem body_of_binders_eq_zero {t : Term} (hb : t.binders = 0) : t.body = t := by
  rw [body, ← hb, withBinders_binders]

theorem renderAfter_of_binders_ne_zero {t : Term} (hb : t.binders ≠ 0) (followed argument : Bool)
    (text : String) : t.renderAfter followed argument text =
      if followed then t.body.renderAfter false false (text ++ "(" ++ lambdaSign t.binders) ++ ")"
      else t.body.renderAfter false false (text ++ lambdaSign t.binders) := by
  have hzero : lambdaSign 0 = "" := rfl
  cases t with
  | app binders range func arg =>
    have hbare : (binders == 0) = false := beq_eq_false_iff_ne.mpr hb
    cases followed <;> simp [renderAfter, body, withBinders, Term.binders, hbare, hzero]
  | _ =>
    have hbare := bne_iff_ne.mpr hb
    simp only [Term.binders] at hbare
    cases followed <;>
      simp [renderAfter, body, withBinders, Term.binders, hbare, hzero, String.append_assoc]

structure RendersByRules (t : Term) : Prop where
  alone : ∀ text, t.renderAfter false false text = text ++ t.written
  function : ∀ text,
    t.renderAfter true false text = text ++ " ".intercalate (t.spine.map member)
  argument : ∀ followed text, t.renderAfter followed true text =
    text ++ parenthesize (t.needsParentheses followed) t.written

theorem rendersByRules_of_spine {t : Term} (hspine : t.spine = [t])
    (h : ∀ followed argument text, t.renderAfter followed argument text =
      text ++ parenthesize (t.needsParentheses followed) t.written)
    (hlast : t.needsParentheses false = false) : t.RendersByRules where
  alone text := by rw [h, hlast]; rfl
  function text := by rw [h, hspine]; rfl
  argument followed text := h followed true text

theorem rendersByRules_var (index : UInt32) : (var 0 index).RendersByRules := by
  refine rendersByRules_of_spine rfl (fun followed argument text => ?_) rfl
  show _ = text ++ (var 0 index).written
  simp [renderAfter, written, String.append_assoc]

theorem rendersByRules_atom (id : UInt32) : (atom 0 id).RendersByRules := by
  refine rendersByRules_of_spine rfl (fun followed argument text => ?_) rfl
  show _ = text ++ (atom 0 id).written
  simp [renderAfter, written, String.append_assoc]

theorem rendersByRules_app (hf : func.RendersByRules) (ha : arg.RendersByRules) :
    (app 0 range func arg).RendersByRules := by
  have hwritten : (app 0 range func arg).written = " ".intercalate (func.spine.map member) ++
      " " ++ parenthesize (arg.needsParentheses false) arg.written := by
    rw [written_app, show lambdaSign 0 = "" from rfl, String.empty_append]
  have hne : func.spine.map member ≠ [] := by simpa using func.spine_ne_nil
  refine ⟨fun text => ?_, fun text => ?_, fun followed text => ?_⟩
  · rw [hwritten]
    simp [renderAfter, hf.function, ha.argument, lambdaSign, String.append_assoc]
  · rw [spine, if_pos rfl, List.map_append, List.map_singleton, intercalate_concat _ _ hne]
    simp [renderAfter, hf.function, ha.argument, lambdaSign, member, String.append_assoc]
  · show _ = text ++ ("(" ++ (app 0 range func arg).written ++ ")")
    rw [hwritten]
    simp [renderAfter, hf.function, ha.argument, lambdaSign, String.append_assoc]

theorem rendersByRules_of_body {t : Term} (h : t.body.RendersByRules) : t.RendersByRules := by
  by_cases hb : t.binders = 0
  · rwa [body_of_binders_eq_zero hb] at h
  · have hneeds : ∀ followed, t.needsParentheses followed = followed := fun _ => if_neg hb
    have hspine : t.spine = [t] := by
      cases t with
      | app => exact if_neg hb
      | _ => rfl
    refine rendersByRules_of_spine hspine (fun followed argument text => ?_) (hneeds false)
    rw [renderAfter_of_binders_ne_zero hb, hneeds, h.alone, h.alone, written_eq t, parenthesize]
    cases followed <;> simp [String.append_assoc]

theorem rendersByRules (t : Term) : t.RendersByRules := by
  induction t with
  | var binders index => exact rendersByRules_of_body (rendersByRules_var index)
  | atom binders id => exact rendersByRules_of_body (rendersByRules_atom id)
  | app binders range func arg ihf iha => exact rendersByRules_of_body (rendersByRules_app ihf iha)

end

theorem render_eq_written (t : Term) : t.render = t.written := by
  rw [render, t.rendersByRules.alone, String.empty_append]

end Term

end WeakHead
