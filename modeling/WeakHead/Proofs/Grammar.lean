import WeakHead.Source
import WeakHead.Proofs.Lambda

/-!
# The grammar of programs

What a list of tokens means, without a parser: a named term that the grammar
derives from the tokens, and the nameless term that it stands for. A program
is a term with fused binders that carries the right ranges and spreads out to
this nameless term; there is at most one.
-/

namespace WeakHead

inductive Named where
  | name (text : String)
  | apply (func arg : Named)
  | lambda (text : String) (body : Named)
  deriving DecidableEq, Repr

namespace Named

def lambdas (names : List String) (m : Named) : Named := names.foldr .lambda m

/-- The term with the number of binders between each name and the innermost one that binds it.
The names of `scope` are bound around the term, the first one innermost. -/
def nameless : List String → Named → Option Lambda
  | scope, .name text => (scope.idxOf? text).map .var
  | scope, .apply func arg => do return .app (← func.nameless scope) (← arg.nameless scope)
  | scope, .lambda text body => (body.nameless (text :: scope)).map .lam

end Named

inductive Category where
  | operand
  | application
  | term
  | abstraction
  deriving DecidableEq, Repr

/-- The grammar: the tokens of each category, with what they mean. -/
inductive Derives : Category → List Token → Named → Prop
  | name {text : String} : Derives .operand [.name text] (.name text)
  | group {ts : List Token} {m : Named} (h : Derives .term ts m) :
    Derives .operand (.opening :: ts ++ [.closing]) m
  | operand {ts : List Token} {m : Named} (h : Derives .operand ts m) : Derives .application ts m
  | argument {ts us : List Token} {func arg : Named} (hf : Derives .application ts func)
    (ha : Derives .operand us arg) : Derives .application (ts ++ us) (.apply func arg)
  | application {ts : List Token} {m : Named} (h : Derives .application ts m) : Derives .term ts m
  | abstraction {ts : List Token} {m : Named} (h : Derives .abstraction ts m) : Derives .term ts m
  | lastArgument {ts us : List Token} {func arg : Named} (hf : Derives .application ts func)
    (ha : Derives .abstraction us arg) : Derives .term (ts ++ us) (.apply func arg)
  | binders {lambda separator : Char} {names : List String} {ts : List Token} {m : Named}
    (h : Derives .term ts m) :
    Derives .abstraction (.lambda lambda :: names.map .name ++ .separator separator :: ts)
      (m.lambdas names)

/-! ## Names and indices -/

namespace Named

section
variable {m func arg : Named} {l : Lambda} {scope : List String}

theorem nameless_apply_eq_some_iff : (apply func arg).nameless scope = some l ↔
    ∃ f a, func.nameless scope = some f ∧ arg.nameless scope = some a ∧ l = .app f a := by
  rw [nameless]
  cases func.nameless scope with
  | none => simp
  | some f =>
    cases arg.nameless scope with
    | none => simp
    | some a => simp [eq_comm]

theorem nameless_lambdas (names : List String) (m : Named) (scope : List String) :
    (m.lambdas names).nameless scope =
      (m.nameless (names.reverse ++ scope)).map (.lams names.length) := by
  induction names generalizing scope with
  | nil =>
    rw [show m.lambdas [] = m from rfl, List.reverse_nil, List.nil_append]
    cases m.nameless scope <;> rfl
  | cons text names ih =>
    rw [show m.lambdas (text :: names) = .lambda text (m.lambdas names) from rfl, nameless, ih,
      List.reverse_cons, List.append_assoc, Option.map_map]
    rfl

theorem scopedUnder_nameless (h : m.nameless scope = some l) : l.ScopedUnder scope.length := by
  induction m generalizing scope l with
  | name text =>
    rw [nameless] at h
    obtain ⟨index, hindex, rfl⟩ := Option.map_eq_some_iff.mp h
    exact (List.idxOf?_eq_some_iff.mp hindex).1
  | apply func arg ihf iha =>
    obtain ⟨f, a, hf, ha, rfl⟩ := nameless_apply_eq_some_iff.mp h
    exact ⟨ihf hf, iha ha⟩
  | lambda text body ih =>
    rw [nameless] at h
    obtain ⟨b, hb, rfl⟩ := Option.map_eq_some_iff.mp h
    have hscope : b.ScopedUnder (text :: scope).length := ih hb
    exact hscope

end

end Named

/-! ## Terms that say what a named term says -/

/-- `t` is the named term `m` with fused binders, where the names of `scope` are bound. -/
structure Term.Translates (t : Term) (scope : List String) (m : Named) : Prop where
  coherent : t.Coherent
  indicesSmall : t.IndicesSmall
  nameless_eq : m.nameless scope = some t.unfuse

namespace Term

section
variable {t u func arg : Term} {scope : List String} {m f a : Named}

theorem translates_name {text : String} {index : Nat} (h : scope.idxOf? text = some index)
    (hindex : index ≤ UInt32.size - 2) :
    (Term.var 0 index.toUInt32).Translates scope (.name text) := by
  have hword : index.toUInt32.toNat = index :=
    Nat.mod_eq_of_lt (Nat.lt_of_le_of_lt hindex (by decide))
  refine ⟨trivial, ?_, ?_⟩
  · show index.toUInt32.toNat ≤ UInt32.size - 2
    rwa [hword]
  · rw [Named.nameless, h, unfuse, hword]
    rfl

theorem Translates.apply (hf : func.Translates scope f) (ha : arg.Translates scope a) :
    (func.apply arg).Translates scope (.apply f a) := by
  refine ⟨coherent_apply.mpr ⟨hf.coherent, ha.coherent⟩,
    indicesSmall_apply.mpr ⟨hf.indicesSmall, ha.indicesSmall⟩, ?_⟩
  exact Named.nameless_apply_eq_some_iff.mpr ⟨_, _, hf.nameless_eq, ha.nameless_eq, rfl⟩

theorem Translates.addBinders {names : List String} {n : UInt32} (hn : n.toNat = names.length)
    (ht : t.Translates (names.reverse ++ scope) m) (h : t.addBinders n = .ok u) :
    u.Translates scope (m.lambdas names) := by
  refine ⟨ht.coherent.addBinders h, ht.indicesSmall.addBinders h, ?_⟩
  rw [Named.nameless_lambdas, ht.nameless_eq, unfuse_addBinders h, hn]
  rfl

theorem Translates.sealed (h : t.Translates [] m) : t.Sealed :=
  ⟨h.coherent, h.indicesSmall,
    (scopedUnder_unfuse 0).mp (Named.scopedUnder_nameless h.nameless_eq)⟩

theorem eq_of_unfuse_eq (ht : t.Coherent) (hu : u.Coherent) (h : t.unfuse = u.unfuse) : t = u := by
  induction t generalizing u with
  | var binders index =>
    obtain ⟨hb, hbody⟩ := binders_eq_of_unfuse_eq h
    cases u with
    | var =>
      rw [show binders = _ from hb, UInt32.toNat_inj.mp (Lambda.var.inj hbody)]
      rfl
    | atom => cases hbody
    | app => cases hbody
  | atom binders id =>
    obtain ⟨hb, hbody⟩ := binders_eq_of_unfuse_eq h
    cases u with
    | var => cases hbody
    | atom =>
      rw [show binders = _ from hb, Lambda.atom.inj hbody]
      rfl
    | app => cases hbody
  | app binders range func arg ihf iha =>
    obtain ⟨hb, hbody⟩ := binders_eq_of_unfuse_eq h
    cases u with
    | var => cases hbody
    | atom => cases hbody
    | app =>
      obtain ⟨hf, ha⟩ := Lambda.app.inj hbody
      obtain ⟨hr, htf, hta⟩ := ht
      obtain ⟨hr', huf, hua⟩ := hu
      rw [show binders = _ from hb, hr, hr', ihf htf huf hf, iha hta hua ha]
      rfl

end

end Term

end WeakHead
