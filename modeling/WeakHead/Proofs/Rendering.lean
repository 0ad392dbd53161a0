import WeakHead.Proofs.Reach
import WeakHead.Proofs.Signs
import WeakHead.Source

/-!
# Reading the written form

A reader that keeps the open parentheses and abstractions on a stack gets back
a term from the signs that it is written with. An abstraction that nothing
follows ends where its group ends.
-/

namespace WeakHead

/-! ## The signs of a term -/

namespace Term

def lambdaSigns (n : UInt32) : List Sign := if n = 0 then [] else [.lambda n]

def enclose (enclosed : Bool) (ss : List Sign) : List Sign :=
  if enclosed then .opening :: (ss ++ [.closing]) else ss

def signs (followed argument : Bool) : Term → List Sign
  | .var binders index =>
    enclose (followed && binders != 0) (lambdaSigns binders ++ [.var index])
  | .atom binders id =>
    enclose (followed && binders != 0) (lambdaSigns binders ++ [.atom id])
  | .app binders _ func arg =>
    let bare := binders == 0
    let enclosed := if bare then argument else followed
    enclose enclosed (lambdaSigns binders ++ (func.signs true false ++ .blank ::
      arg.signs (bare && !enclosed && followed) true))

theorem toList_lambdaSign (n : UInt32) :
    (lambdaSign n).toList = (lambdaSigns n).flatMap Sign.text := by
  unfold lambdaSigns
  by_cases h : n = 0
  · rw [if_pos h, lambdaSign, if_pos h]
    rfl
  · rw [if_neg h, List.flatMap_cons, List.flatMap_nil, List.append_nil]
    rfl

theorem toList_renderAfter (t : Term) (followed argument : Bool) (text : String) :
    (t.renderAfter followed argument text).toList =
      text.toList ++ (t.signs followed argument).flatMap Sign.text := by
  induction t generalizing followed argument text with
  | var binders index =>
    unfold renderAfter signs enclose
    by_cases h : (followed && binders != 0) = true
    · simp [h, toList_lambdaSign, Sign.text, Sign.digits]
    · simp [h, toList_lambdaSign, Sign.text, Sign.digits]
  | atom binders id =>
    unfold renderAfter signs enclose
    by_cases h : (followed && binders != 0) = true
    · simp [h, toList_lambdaSign, Sign.text, Sign.digits]
    · simp [h, toList_lambdaSign, Sign.text, Sign.digits]
  | app binders range func arg ihf iha =>
    unfold renderAfter signs enclose
    dsimp only
    generalize (if binders == 0 then argument else followed) = enclosed
    cases enclosed with
    | true => simp [toList_lambdaSign, ihf, iha, Sign.text]
    | false => simp [toList_lambdaSign, ihf, iha, Sign.text]

theorem proper_of_mem_enclose {enclosed : Bool} {ss : List Sign} (h : ∀ s ∈ ss, s.Proper) :
    ∀ s ∈ enclose enclosed ss, s.Proper := by
  unfold enclose
  cases enclosed with
  | true =>
    refine List.forall_mem_cons.mpr ⟨trivial, List.forall_mem_append.mpr ⟨h, ?_⟩⟩
    simp [Sign.Proper]
  | false => exact h

theorem proper_of_mem_lambdaSigns {n : UInt32} : ∀ s ∈ lambdaSigns n, s.Proper := by
  unfold lambdaSigns
  by_cases h : n = 0
  · simp [h]
  · simp [h, Sign.Proper]

theorem proper_of_mem_signs (t : Term) (followed argument : Bool) :
    ∀ s ∈ t.signs followed argument, s.Proper := by
  induction t generalizing followed argument with
  | var binders index =>
    refine proper_of_mem_enclose (List.forall_mem_append.mpr ⟨proper_of_mem_lambdaSigns, ?_⟩)
    simp [Sign.Proper]
  | atom binders id =>
    refine proper_of_mem_enclose (List.forall_mem_append.mpr ⟨proper_of_mem_lambdaSigns, ?_⟩)
    simp [Sign.Proper]
  | app binders range func arg ihf iha =>
    refine proper_of_mem_enclose (List.forall_mem_append.mpr ⟨proper_of_mem_lambdaSigns, ?_⟩)
    exact List.forall_mem_append.mpr ⟨ihf true false, List.forall_mem_cons.mpr ⟨trivial, iha _ _⟩⟩

end Term

/-! ## The reader -/

def Term.after (t : Term) : Option Term → Term
  | none => t
  | some func => func.apply t

def Enclosure.ended (e : Enclosure) (current : Option Term) : Option Term :=
  match e.opening with
  | .group => current.map fun t => t.after e.before
  | .abstraction n => current.map fun t => (t.withBinders n).after e.before

structure Reader where
  current : Option Term
  enclosures : List Enclosure
  deriving DecidableEq, Repr

namespace Reader

def start : Reader := ⟨none, []⟩

def add (r : Reader) (t : Term) : Reader := ⟨some (t.after r.current), r.enclosures⟩

def enter (r : Reader) (opening : Opening) : Reader := ⟨none, ⟨opening, r.current⟩ :: r.enclosures⟩

def settle (current : Option Term) : List Enclosure → Reader
  | [] => ⟨current, []⟩
  | e :: outer =>
    if e.opening.isAbstraction then settle (e.ended current) outer else ⟨current, e :: outer⟩

def settled (r : Reader) : Reader := settle r.current r.enclosures

def close (r : Reader) : Reader :=
  match r.settled with
  | ⟨current, []⟩ => ⟨current, []⟩
  | ⟨current, e :: outer⟩ => ⟨e.ended current, outer⟩

def step (r : Reader) : Sign → Reader
  | .opening => r.enter .group
  | .closing => r.close
  | .blank => r
  | .lambda binders => r.enter (.abstraction binders)
  | .var index => r.add (.var 0 index)
  | .atom id => r.add (.atom 0 id)

def read (ss : List Sign) : Option Term := (ss.foldl step start).settled.current

/-! ## Terms are read as they are written -/

/-- Two readers are equal, or they will be once the group ends. -/
def Agree (followed : Bool) (r r' : Reader) : Prop :=
  r.settled = r'.settled ∧ (followed = true → r = r')

section
variable {followed argument : Bool} {r r' : Reader} {n : UInt32} {t func arg : Term}
  {ss : List Sign}

theorem Agree.of_eq (h : r = r') : Agree followed r r' := by
  rw [h]
  exact ⟨rfl, fun _ => rfl⟩

theorem agree_enclose {enclosed : Bool}
    (hbare : enclosed = false → Agree followed (ss.foldl step r) (r.add t))
    (hclosed : enclosed = true →
      Agree false (ss.foldl step (r.enter .group)) ((r.enter .group).add t)) :
    Agree followed ((Term.enclose enclosed ss).foldl step r) (r.add t) := by
  unfold Term.enclose
  cases enclosed with
  | false => exact hbare rfl
  | true =>
    refine .of_eq ?_
    rw [if_pos rfl, List.foldl_cons, List.foldl_append]
    show close (ss.foldl step (r.enter .group)) = r.add t
    rw [close, (hclosed rfl).1]
    rfl

theorem agree_lambdaSigns (ht : t.binders = 0) (hn : followed = true → n = 0)
    (h : ∀ r' : Reader, (n = 0 → r' = r) → (n ≠ 0 → r'.current = none) →
      Agree followed (ss.foldl step r') (r'.add t)) :
    Agree followed ((Term.lambdaSigns n ++ ss).foldl step r) (r.add (t.withBinders n)) := by
  unfold Term.lambdaSigns
  by_cases hzero : n = 0
  · have hbody : t.withBinders n = t := by rw [hzero, ← ht, Term.withBinders_binders]
    rw [if_pos hzero, List.nil_append, hbody]
    exact h r (fun _ => rfl) (absurd hzero)
  · have hlast : followed ≠ true := fun hf => hzero (hn hf)
    rw [if_neg hzero]
    exact ⟨(h (r.enter (.abstraction n)) (absurd · hzero) fun _ => rfl).1, (absurd · hlast)⟩

theorem agree_leaf {s : Sign} (ht : t.binders = 0) (hs : ∀ r : Reader, r.step s = r.add t) :
    Agree followed
      ((Term.enclose (followed && n != 0) (Term.lambdaSigns n ++ [s])).foldl step r)
      (r.add (t.withBinders n)) := by
  refine agree_enclose (fun hbare => agree_lambdaSigns ht ?_ ?_)
    fun _ => agree_lambdaSigns ht (by simp) ?_
  · intro hf
    simpa [hf] using hbare
  · intro r' _ _
    exact .of_eq (hs r')
  · intro r' _ _
    exact .of_eq (hs r')

/-- Wherever the term is written, its signs are read as the term. Only an argument comes after other
terms. -/
def IsRead (t : Term) : Prop :=
  ∀ (followed argument : Bool) (r : Reader), (argument = false → r.current = none) →
    Agree followed ((t.signs followed argument).foldl step r) (r.add t)

theorem agree_children (hf : IsRead func) (ha : IsRead arg) (hr : r.current = none) :
    Agree followed ((func.signs true false ++ .blank :: arg.signs followed true).foldl step r)
      (r.add (func.apply arg)) := by
  have hfunc := (hf true false r fun _ => hr).2 rfl
  rw [List.foldl_append, hfunc]
  have harg := ha followed true (r.add func) (by simp)
  have happly : (r.add func).add arg = r.add (func.apply arg) := by
    unfold add
    rw [hr]
    rfl
  rwa [happly] at harg

theorem isRead_app (hf : IsRead func) (ha : IsRead arg) (n : UInt32) :
    IsRead ((func.apply arg).withBinders n) := by
  intro followed argument r hr
  show Agree followed (List.foldl step r (Term.enclose _ _)) _
  by_cases hzero : n = 0
  · -- without binders it needs parentheses as an argument
    refine agree_enclose (fun hbare => agree_lambdaSigns rfl (fun _ => hzero) ?_)
      fun hclosed => agree_lambdaSigns rfl (by simp) ?_
    · have harg : argument = false := by simpa [hzero] using hbare
      intro r' hr' _
      rw [hr' hzero]
      simpa [hzero, harg] using agree_children hf ha (hr harg)
    · have harg : argument = true := by simpa [hzero] using hclosed
      intro r' hr' _
      rw [hr' hzero]
      simpa [hzero, harg] using agree_children hf ha rfl
  · -- with binders it needs them if something follows
    refine agree_enclose (fun hbare => agree_lambdaSigns rfl ?_ ?_)
      fun hclosed => agree_lambdaSigns rfl (by simp) ?_
    · have hlast : followed = false := by simpa [hzero] using hbare
      simp [hlast]
    · have hlast : followed = false := by simpa [hzero] using hbare
      intro r' _ hr'
      simpa [hzero, hlast] using agree_children hf ha (hr' hzero)
    · have hlast : followed = true := by simpa [hzero] using hclosed
      intro r' _ hr'
      simpa [hzero, hlast] using agree_children hf ha (hr' hzero)

theorem isRead_of_coherent (hc : t.Coherent) : IsRead t := by
  induction t with
  | var binders index =>
    intro followed argument r _
    exact agree_leaf (t := .var 0 index) rfl fun _ => rfl
  | atom binders id =>
    intro followed argument r _
    exact agree_leaf (t := .atom 0 id) rfl fun _ => rfl
  | app binders range func arg ihf iha =>
    obtain ⟨rfl, hcf, hca⟩ := hc
    exact isRead_app (ihf hcf) (iha hca) binders

theorem read_signs (hc : t.Coherent) : read (t.signs false false) = some t := by
  unfold read
  rw [(isRead_of_coherent hc false false start fun _ => rfl).1]
  rfl

end

end Reader

theorem Term.render_inj {t u : Term} (ht : t.Coherent) (hu : u.Coherent)
    (h : t.render = u.render) : t = u := by
  have htext := congrArg String.toList h
  unfold render at htext
  rw [toList_renderAfter, toList_renderAfter] at htext
  have hsigns := Sign.flatMap_text_inj (proper_of_mem_signs t false false)
    (proper_of_mem_signs u false false) (List.append_cancel_left htext)
  have hread := congrArg Reader.read hsigns
  rw [Reader.read_signs ht, Reader.read_signs hu] at hread
  exact Option.some.inj hread

end WeakHead
