import WeakHead.Proofs.ReadTerms
import WeakHead.Proofs.SinkCalls
import WeakHead.Proofs.Substitution
import WeakHead.Proofs.TermInvariants

/-!
# Where atoms come from

A run has three sources of atoms: the program, `Term.nil` and, until the first
operation, the placeholders, which are numbered in the order in which they are
made. Instantiation moves atoms and makes none.
-/

namespace WeakHead

namespace Term

/-! ## Atoms of terms -/

def atoms : Term → List UInt32
  | .var _ _ => []
  | .atom _ id => [id]
  | .app _ _ func arg => func.atoms ++ arg.atoms

@[simp] theorem atoms_withBinders (n : UInt32) (t : Term) : (t.withBinders n).atoms = t.atoms := by
  cases t <;> rfl

theorem atoms_addBinders {n : UInt32} {t u : Term} (h : t.addBinders n = .ok u) :
    u.atoms = t.atoms := by
  rw [(addBinders_eq_ok_iff.mp h).2, atoms_withBinders]

theorem Instantiates.mem_atoms {values : Array Term} {outer : Nat} {t u : Term}
    (h : Instantiates values outer t u) {id : UInt32} (hid : id ∈ u.atoms) :
    id ∈ t.atoms ∨ ∃ v ∈ values, id ∈ v.atoms := by
  induction h with
  | kept => exact .inl hid
  | lowered => exact .inl hid
  | atom => exact .inl hid
  | pruned => exact .inl hid
  | replaced _ hk hu =>
    rw [atoms_addBinders hu] at hid
    exact .inr ⟨_, Array.mem_of_getElem? hk, hid⟩
  | rebuilt _ _ _ ihf iha =>
    rw [atoms_withBinders] at hid
    rcases List.mem_append.mp hid with hid | hid
    · exact (ihf hid).imp_left (List.mem_append_left _)
    · exact (iha hid).imp_left (List.mem_append_right _)

theorem composed_atoms : Composed fun t => t.atoms = [] where
  var _ := rfl
  apply hf ha := List.append_eq_nil_iff.mpr ⟨hf, ha⟩
  addBinders ht h := (atoms_addBinders h).trans ht

end Term

theorem inherited_atoms {ids : List UInt32} (hnil : 0 ∈ ids) :
    Inherited fun _ t => t.atoms ⊆ ids where
  nil _ := by simpa [Term.nil, Term.atoms] using hnil
  ofBit _ _ := List.nil_subset ids
  func h := (List.append_subset.mp h).1
  arg h := (List.append_subset.mp h).2
  later h := h
  instantiate {_ t _ _} ht hv _ h := by
    intro id hid
    rcases (Term.instantiates_of_ok h).mem_atoms hid with hid | ⟨v, hmem, hid⟩
    · rw [Term.body, Term.atoms_withBinders] at hid
      exact ht hid
    · exact hv v hmem hid

/-! ## Sources -/

/-- The ids of the atoms that a run may come upon once these placeholders are made. -/
def sources (program : Term) (made : List Term) : List UInt32 :=
  (.nil :: program :: made).flatMap Term.atoms

/-- The placeholders are the atoms from `0` on, in order; after the greatest id comes `0`. -/
def Numbered (made : List Term) : Prop :=
  made = (List.range made.length).map fun j => .atom 0 j.toUInt32

def Attested (program : Term) (k : Nat) (id : UInt32) : Prop :=
  id = 0 ∨ id ∈ program.atoms ∨ ∃ j < k, id.toNat = j % UInt32.size

section
variable {program : Term} {made : List Term} {id : UInt32}

theorem mem_sources_iff : id ∈ sources program made ↔
    id = 0 ∨ id ∈ program.atoms ∨ ∃ t ∈ made, id ∈ t.atoms := by
  simp [sources, Term.nil, Term.atoms]

theorem sources_subset_append (program : Term) (made more : List Term) :
    sources program made ⊆ sources program (made ++ more) := by
  intro id hid
  rw [mem_sources_iff] at hid ⊢
  refine hid.imp_right (Or.imp_right ?_)
  rintro ⟨t, ht, hid⟩
  exact ⟨t, List.mem_append_left _ ht, hid⟩

theorem Numbered.exists_of_mem (h : Numbered made) {t : Term} (ht : t ∈ made) :
    ∃ j < made.length, t = .atom 0 j.toUInt32 := by
  rw [h] at ht
  obtain ⟨j, hj, rfl⟩ := List.mem_map.mp ht
  exact ⟨j, List.mem_range.mp hj, rfl⟩

theorem Numbered.append_take (h : Numbered made) (n : Nat) :
    Numbered (made ++ ((Placeholders.numbered made.length.toUInt32).take n).1.reverse) := by
  have hnext : ((Placeholders.numbered made.length.toUInt32).take n).1.reverse =
      (List.range n).map fun k => .atom 0 (made.length + k).toUInt32 := by
    simp only [Placeholders.take, List.map_reverse, List.reverse_reverse]
    exact List.map_congr_left fun k _ => congrArg _ (UInt32.ofNat_add _ _).symm
  rw [Numbered, hnext, List.length_append, List.length_map, List.length_range, List.range_add,
    List.map_append, List.map_map, ← h]
  rfl

theorem Numbered.attested (h : Numbered made) (hid : id ∈ sources program made) :
    Attested program made.length id := by
  refine (mem_sources_iff.mp hid).imp_right (Or.imp_right ?_)
  rintro ⟨t, ht, hid⟩
  obtain ⟨j, hj, rfl⟩ := h.exists_of_mem ht
  rw [List.mem_singleton.mp hid]
  exact ⟨j, hj, rfl⟩

end

def supply (operations : Nat) (made : List Term) : Placeholders :=
  if operations = 0 then .numbered made.length.toUInt32 else .blank

def Ending.atoms : Ending → List UInt32
  | .halted id whnf => id :: whnf.atoms
  | .stuck _ => []
  | .outOfSteps => []
  | .failed _ => []

namespace Machine

def atoms (m : Machine) : List UInt32 := (m.focus :: m.spine.toList).flatMap Term.atoms

/-- The placeholders that the next step makes, the one for the outermost binder first. After the
first operation they do not count. -/
def freshPlaceholders (m : Machine) : List Term :=
  if m.rule = .beta ∧ m.tally.operations = 0 then m.missing.reverse else []

def madePlaceholders (n : Nat) (m : Machine) : List Term := history freshPlaceholders n m

/-- The atoms of the machine have their sources, and the placeholders are numbered until the first
operation. -/
structure Supplied (program : Term) (made : List Term) (m : Machine) : Prop where
  carries : m.Carries fun _ t => t.atoms ⊆ sources program made
  numbered : Numbered made
  placeholders_eq : m.placeholders = supply m.tally.operations made

/-! ## Steps -/

section
variable {program : Term} {made : List Term} {m m' : Machine} {id : UInt32}

theorem Carries.atoms_subset {ids : List UInt32} (h : m.Carries fun _ t => t.atoms ⊆ ids) :
    m.atoms ⊆ ids := by
  obtain ⟨hfocus, ts, hts, hall⟩ := h
  intro id hid
  rw [atoms, hts.toList_eq, List.flatMap_cons, List.mem_append, List.mem_flatMap] at hid
  rcases hid with hid | ⟨t, ht, hid⟩
  · exact hfocus hid
  · exact hall t ht hid

theorem rule_eq_beta (ho : m.isOutOfSteps = false) (hb : m.focus.binders ≠ 0) :
    m.rule = .beta := by
  simp [rule, ho, hb]

theorem mem_atoms_of_rule (h : m.rule = .dispatch id) : id ∈ m.focus.atoms := by
  unfold rule at h
  by_cases ho : m.isOutOfSteps = true
  · simp [ho] at h
  · by_cases hb : m.focus.binders ≠ 0
    · simp [ho, hb] at h
    · cases hf : m.focus with
      | var => simp_all
      | app => simp_all
      | atom => simp_all [Term.atoms]

theorem freshPlaceholders_of_ne_beta (hr : m.rule ≠ .beta) : m.freshPlaceholders = [] :=
  if_neg fun hfresh => hr hfresh.1

theorem Supplied.fresh_cases (h : m.Supplied program made) (hr : m.rule = .beta) :
    let missing := m.focus.binders.toNat - m.spine.size
    (m.tally.operations = 0 ∧ m.placeholders = .numbered made.length.toUInt32 ∧
      m.freshPlaceholders = (m.placeholders.take missing).1.reverse) ∨
    (m.tally.operations ≠ 0 ∧ m.placeholders = .blank ∧ m.freshPlaceholders = []) := by
  intro missing
  have hplaceholders := h.placeholders_eq
  by_cases hops : m.tally.operations = 0
  · rw [supply, if_pos hops] at hplaceholders
    exact .inl ⟨hops, hplaceholders, if_pos ⟨hr, hops⟩⟩
  · rw [supply, if_neg hops] at hplaceholders
    exact .inr ⟨hops, hplaceholders, if_neg fun hfresh => hops hfresh.2⟩

theorem Supplied.numbered_append (h : m.Supplied program made) :
    Numbered (made ++ m.freshPlaceholders) := by
  by_cases hr : m.rule = .beta
  · rcases h.fresh_cases hr with ⟨-, hp, hfresh⟩ | ⟨-, -, hfresh⟩
    · rw [hfresh, hp]
      exact h.numbered.append_take _
    · rw [hfresh, List.append_nil]
      exact h.numbered
  · rw [freshPlaceholders_of_ne_beta hr, List.append_nil]
    exact h.numbered

theorem Supplied.missing_subset (h : m.Supplied program made) (hr : m.rule = .beta) :
    ∀ t ∈ m.missing, t.atoms ⊆ sources program (made ++ m.freshPlaceholders) := by
  intro t ht id hid
  rw [mem_sources_iff]
  rcases h.fresh_cases hr with ⟨-, -, hfresh⟩ | ⟨-, hp, -⟩
  · refine .inr (.inr ⟨t, List.mem_append_right _ ?_, hid⟩)
    rw [hfresh]
    exact List.mem_reverse.mpr ht
  · rw [missing, hp] at ht
    rw [List.eq_of_mem_replicate ht] at hid
    exact .inl (List.mem_singleton.mp hid)

theorem Supplied.take_placeholders (h : m.Supplied program made) (hr : m.rule = .beta) :
    (m.placeholders.take (m.focus.binders.toNat - m.spine.size)).2 =
      supply m.tally.operations (made ++ m.freshPlaceholders) := by
  rcases h.fresh_cases hr with ⟨hops, hp, hfresh⟩ | ⟨hops, hp, -⟩
  · rw [hfresh, supply, if_pos hops, List.length_append, List.length_reverse,
      length_take_placeholders, hp]
    exact congrArg _ (UInt32.ofNat_add _ _).symm
  · rw [supply, if_neg hops, hp]
    rfl

theorem Supplied.step_placeholders (h : m.Supplied program made) : m.step.Sat
    (fun m' => m'.placeholders = supply m'.tally.operations (made ++ m.freshPlaceholders))
    fun e _ => ∀ id whnf, e = .halted id whnf → m.rule = .dispatch id := by
  refine step_sat ?_ fun _ _ _ _ => nofun
  unfold settled
  cases hr : m.rule with
  | stop e =>
    rintro s id whnf rfl
    rcases ending_of_rule hr with e | ⟨_, e⟩ <;> cases e
  | unwind func arg =>
    intro s
    rw [freshPlaceholders_of_ne_beta (by simp [hr]), List.append_nil]
    exact h.placeholders_eq
  | beta =>
    dsimp only
    cases hb : m.beta with
    | error fault => trivial
    | ok m' =>
      intro s
      obtain ⟨-, ts, hts, -⟩ := h.carries
      obtain ⟨focus, spine, -, -, rfl⟩ := beta_eq_ok hts hb
      rw [← hts.size_eq]
      exact h.take_placeholders hr
  | dispatch id =>
    dsimp only
    cases BitOp.ofAtomId? id with
    | none =>
      rintro s id' whnf e
      cases e
      rfl
    | some op =>
      cases op with
      | write bit => exact fun _ => rfl
      | read =>
        unfold executed
        cases m.takeNearest.input.readBit with
        | ok read => exact fun _ => rfl
        | error reason => exact fun _ _ _ => nofun

theorem Supplied.attested (h : m.Supplied program made) :
    ∀ id ∈ m.atoms, Attested program made.length id :=
  fun _ hid => h.numbered.attested (h.carries.atoms_subset hid)

theorem Supplied.step (h : m.Supplied program made) : m.step.Sat
    (Supplied program (made ++ m.freshPlaceholders))
    fun e m' => Numbered (made ++ m.freshPlaceholders) ∧
      e.atoms ++ m'.atoms ⊆ sources program (made ++ m.freshPlaceholders) := by
  -- the fresh placeholders are added to the sources first, so that the step stays within them
  have hmore : m.Carries fun _ t => t.atoms ⊆ sources program (made ++ m.freshPlaceholders) :=
    h.carries.mono fun _ ht =>
      List.Subset.trans ht (sources_subset_append program made m.freshPlaceholders)
  have hnil : 0 ∈ sources program (made ++ m.freshPlaceholders) := mem_sources_iff.mpr (.inl rfl)
  have hterms := (inherited_atoms hnil).step hmore
    fun ho hb => h.missing_subset (rule_eq_beta ho hb)
  have hplaceholders := h.step_placeholders
  cases hs : m.step with
  | running m' =>
    rw [hs] at hterms hplaceholders
    exact ⟨hterms, h.numbered_append, hplaceholders⟩
  | faulted fault => trivial
  | ended e m' =>
    rw [hs] at hterms hplaceholders
    refine ⟨h.numbered_append, List.append_subset.mpr ⟨?_, hterms.1.atoms_subset⟩⟩
    cases e with
    | halted id whnf =>
      have hid := mem_atoms_of_rule (hplaceholders id whnf rfl)
      exact List.cons_subset.mpr ⟨hmore.1 hid, hterms.2⟩
    | stuck index => exact List.nil_subset _
    | outOfSteps => exact List.nil_subset _
    | failed cause => exact List.nil_subset _

/-! ## Runs -/

theorem supplied_start (settings : Settings) (program : Term) (input : Input) (sink : Sink) :
    (start settings program input sink).Supplied program [] where
  carries := carries_start fun _ hid => mem_sources_iff.mpr (.inr (.inl hid))
  numbered := rfl
  placeholders_eq := rfl

theorem Supplied.run (h : m.Supplied program made) (n : Nat) : (run n m).Sat
    (Supplied program (made ++ madePlaceholders n m))
    fun e m' => Numbered (made ++ madePlaceholders n m) ∧
      e.atoms ++ m'.atoms ⊆ sources program (made ++ madePlaceholders n m) := by
  have hrun := run_sat_trail
    (I := fun ms => Supplied program (made ++ ms.flatMap freshPlaceholders))
    (E := fun ms e m' => Numbered (made ++ ms.flatMap freshPlaceholders) ∧
      e.atoms ++ m'.atoms ⊆ sources program (made ++ ms.flatMap freshPlaceholders))
    (fun ms m h => by simpa using h.step) (by simpa using h) n
  rwa [flatMap_trail] at hrun

theorem Supplied.operation (h : m.Supplied program made) {op : BitOp}
    (hop : m.operation? = some op) : op.atomId ∈ program.atoms ∨ .atom 0 op.atomId ∈ made := by
  obtain ⟨id, hr, hid⟩ := rule_of_operation hop
  obtain rfl := BitOp.ofAtomId?_eq_some_iff.mp hid
  rcases mem_sources_iff.mp (h.carries.1 (mem_atoms_of_rule hr)) with hzero | hmem | ⟨t, ht, hmem⟩
  · -- `Term.nil` is no operation
    rcases op with _ | _ | _ <;> cases hzero
  · exact .inl hmem
  · obtain ⟨j, -, rfl⟩ := h.numbered.exists_of_mem ht
    rw [List.mem_singleton.mp hmem]
    exact .inr ht

end

theorem supplied_run (settings : Settings) (program : Term) (input : Input) (sink : Sink)
    (n : Nat) :
    let m := start settings program input sink
    let made := madePlaceholders n m
    (∀ m', run n m = .running m' → m'.Supplied program made) ∧
    ∀ e m', run n m = .ended e m' →
      ∀ id ∈ e.atoms ++ m'.atoms, Attested program made.length id := by
  intro m made
  have hrun := (supplied_start settings program input sink).run n
  constructor
  · intro m' hm'
    rw [hm'] at hrun
    exact hrun
  · intro e m' hm' id hid
    rw [hm'] at hrun
    exact hrun.1.attested (hrun.2 hid)

/-- **No atom comes from nowhere.** All atoms of a run, those of its result and of its operations
among them, are `Term.nil`, atoms of the program or placeholders made before the first operation.
A program that is read has no atoms, so there they are `Term.nil` or such placeholders. -/
theorem atoms_of_run :
    (∀ (settings : Settings) (program : Term) (input : Input) (sink : Sink) (n : Nat),
      let m := start settings program input sink
      let made := madePlaceholders n m
      (∀ m', run n m = .running m' →
        (∀ id ∈ m'.atoms, Attested program made.length id) ∧
          ∀ op, m'.operation? = some op →
            op.atomId ∈ program.atoms ∨ .atom 0 op.atomId ∈ made) ∧
      ∀ e m', run n m = .ended e m' →
        ∀ id ∈ e.atoms ++ m'.atoms, Attested program made.length id) ∧
    ∀ (file source : String) (program : Term), parse file source = .ok (.ok program) →
      program.atoms = [] ∧ ∀ settings input sink n,
        let m := start settings program input sink
        let made := madePlaceholders n m
        (∀ m', run n m = .running m' →
          ∀ id ∈ m'.atoms, id = 0 ∨ ∃ j < made.length, id.toNat = j % UInt32.size) ∧
        ∀ e m', run n m = .ended e m' →
          ∀ id ∈ e.atoms ++ m'.atoms,
            id = 0 ∨ ∃ j < made.length, id.toNat = j % UInt32.size := by
  constructor
  · intro settings program input sink n
    obtain ⟨hrunning, hended⟩ := supplied_run settings program input sink n
    exact ⟨fun m' hm' => ⟨(hrunning m' hm').attested, fun _ => (hrunning m' hm').operation⟩, hended⟩
  · intro file source program hparse
    have hnone : program.atoms = [] := Term.composed_atoms.of_parse hparse
    have hwithout {k : Nat} {id : UInt32} (h : Attested program k id) :
        id = 0 ∨ ∃ j < k, id.toNat = j % UInt32.size :=
      h.imp_right fun h => h.resolve_left (by simp [hnone])
    refine ⟨hnone, fun settings input sink n => ?_⟩
    obtain ⟨hrunning, hended⟩ := supplied_run settings program input sink n
    exact ⟨fun m' hm' id hid => hwithout ((hrunning m' hm').attested id hid),
      fun e m' hm' id hid => hwithout (hended e m' hm' id hid)⟩

theorem atoms_of_run_after_read :
    let source := "\\nil read w0 w1 a4. read (\\b c. a4 c)"
    let program := Term.app 5 4 (.var 0 3) (.app 2 3 (.var 0 2) (.var 0 0))
    let m := start ⟨false, none⟩ program (.ofDeliveries [.byte 0x80]) (.limited none none)
    parse "read" source = .ok (.ok program) ∧ program.atoms = [] ∧
      (∃ m₁, run 2 m = .running m₁ ∧ m₁.operation? = some .read ∧
        .atom 0 1 ∈ madePlaceholders 2 m) ∧
      (madePlaceholders 6 m).length = 5 ∧
      ∃ m₁, run 6 m = .ended (.halted 4 .nil) m₁ ∧
        ∀ id ∈ [4, 0] ++ m₁.atoms, id = 0 ∨ ∃ j < 5, id.toNat = j % UInt32.size := by
  -- a binder after a read finds no argument: the result is a placeholder applied to `Term.nil`
  intro source program m
  have hparse : parse "read" "\\nil read w0 w1 a4. read (\\b c. a4 c)" =
      .ok (.ok (.app 5 4 (.var 0 3) (.app 2 3 (.var 0 2) (.var 0 0)))) := rfl
  have hmade : (madePlaceholders 6 m).length = 5 := by decide +kernel
  have hread : (run 2 m).machine?.bind operation? = some .read := by decide +kernel
  obtain ⟨m₁, hm₁⟩ : ∃ m₁, run 2 m = .running m₁ := Progress.exists_running (by decide +kernel)
  rw [hm₁] at hread
  obtain ⟨m₂, hm₂⟩ : ∃ m₂, run 6 m = .ended (.halted 4 .nil) m₂ :=
    Progress.exists_of_ending? (by decide +kernel)
  obtain ⟨hnone, hended⟩ := atoms_of_run.2 "read" source program hparse
  obtain ⟨-, hended⟩ := hended ⟨false, none⟩ (.ofDeliveries [.byte 0x80]) (.limited none none) 6
  obtain ⟨hrunning, -⟩ := atoms_of_run.1 ⟨false, none⟩ program (.ofDeliveries [.byte 0x80])
    (.limited none none) 2
  have hoperation : .atom 0 1 ∈ madePlaceholders 2 m :=
    ((hrunning m₁ hm₁).2 .read hread).resolve_left (by simp [hnone])
  refine ⟨hparse, hnone, ⟨m₁, hm₁, hread, hoperation⟩, hmade, m₂, hm₂, ?_⟩
  rw [← hmade]
  exact hended _ m₂ hm₂

end Machine

end WeakHead
