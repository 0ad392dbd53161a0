import WeakHead.Source
import WeakHead.Proofs.Phrases

/-!
# Completeness of parsing

Reading what the grammar derives finds no problems but unknown names and adds
the term that is meant. Abstractions stay open while they are read; the reading
then unwinds to the one that it has to become, by leaving them at whatever ends
their group.
-/

namespace WeakHead

namespace Reading

/-- Leaving the abstractions inside `outer` turns `r` into `outer`. -/
structure Unwinds (r outer : Reading) : Prop where
  heading_eq : r.heading = none
  leaves : ∃ inner, r.enclosures = inner ++ outer.enclosures ∧
    (∀ e ∈ inner, e.opening.isAbstraction = true) ∧ ∀ stop enclosures,
      inner.foldlM (leave stop) { r with enclosures := enclosures } =
        .ok { outer with enclosures := enclosures }

def note (r : Reading) (names : List (Located String)) : Reading :=
  { r with
    problems := r.problems ++
      (names.map fun n => (⟨n.position, .unknownName n.value⟩ : Located Problem)).toArray }

/-- Reading the tokens of a category reports the unknown names and adds the term, at once or when
abstractions are left. -/
def Takes (r : Reading) (ts : List (Located Token)) (unknown : List (Located String)) (t : Term) :
    Category → Prop
  | .operand => ts.foldlM step r = .ok ((r.note unknown).add t)
  | .application => r.current = none → ts.foldlM step r = .ok ((r.note unknown).add t)
  | .term => r.current = none →
    ∃ r', ts.foldlM step r = .ok r' ∧ r'.Unwinds ((r.note unknown).add t)
  | .abstraction => ∃ r', ts.foldlM step r = .ok r' ∧ r'.Unwinds ((r.note unknown).add t)

/-- `r` takes the tokens as the phrase: it adds the term that is meant, if nothing is unknown, and
each binder of the term has a token. -/
structure TakesPhrase (r : Reading) (ts : List (Located Token)) (m : Phrase) (c : Category)
    (t : Term) : Prop where
  translates : m.unknown r.scope = [] → t.Translates r.scope m.named
  binders_le : t.binders.toNat ≤ ts.length
  takes : r.Takes ts (m.unknown r.scope) t c

def IsTaken (ts : List (Located Token)) (m : Phrase) (c : Category) : Prop :=
  ∀ r : Reading, r.heading = none → r.scope.length + ts.length ≤ UInt32.size - 2 →
    ∃ t, r.TakesPhrase ts m c t

section
variable {r r' outer : Reading} {t u : Term} {stop : Located Stop} {n : UInt32}
  {tok : Located Token} {ts us : List (Located Token)} {p q : Position}

/-! ## Adding terms -/

theorem add_of_current_none (h : r.current = none) (t : Term) :
    r.add t = { r with current := some t } := by
  rw [add, h]

theorem add_of_current_some {func : Term} (h : r.current = some func) (t : Term) :
    r.add t = { r with current := some (func.apply t) } := by
  rw [add, h]

@[simp] theorem heading_add (r : Reading) (t : Term) : (r.add t).heading = r.heading := by
  unfold add
  cases r.current <;> rfl

@[simp] theorem scope_add (r : Reading) (t : Term) : (r.add t).scope = r.scope := by
  unfold add
  cases r.current <;> rfl

@[simp] theorem enclosures_add (r : Reading) (t : Term) :
    (r.add t).enclosures = r.enclosures := by
  unfold add
  cases r.current <;> rfl

@[simp] theorem problems_add (r : Reading) (t : Term) : (r.add t).problems = r.problems := by
  unfold add
  cases r.current <;> rfl

theorem add_with_enclosures (r : Reading) (t : Term) (enclosures : List Enclosure) :
    { r.add t with enclosures := enclosures } = { r with enclosures := enclosures }.add t := by
  unfold add
  cases r.current <;> rfl

/-! ## Reporting unknown names -/

theorem note_nil (r : Reading) : r.note [] = r := by
  simp [note]

theorem note_singleton (r : Reading) (name : Located String) :
    r.note [name] = r.report name.position (.unknownName name.value) := by
  simp [note, report]

theorem note_append (r : Reading) (us vs : List (Located String)) :
    r.note (us ++ vs) = (r.note us).note vs := by
  simp [note]

theorem note_add (r : Reading) (t : Term) (names : List (Located String)) :
    (r.add t).note names = (r.note names).add t := by
  rw [note, note, add, add]
  cases r.current <;> rfl

theorem note_add_note_add (h : r.current = none) (func arg : Term)
    (xs ys : List (Located String)) : (((r.note xs).add func).note ys).add arg =
      (r.note (xs ++ ys)).add (func.apply arg) := by
  have hcurrent : ∀ names, (r.note names).current = none := fun _ => h
  rw [note_add, ← note_append, add_of_current_none (hcurrent _), add_of_current_some rfl,
    add_of_current_none (hcurrent _)]

/-! ## Leaving constructs -/

theorem leave_entered (stop : Located Stop) {names : List String} {opening : Opening}
    (hn : opening.binders.toNat = names.length) (ht : t.addBinders opening.binders = .ok u)
    (hr : r.heading = none) (enclosures : List Enclosure) :
    leave stop { ({ r with scope := names.reverse ++ r.scope }.enter opening).add t with
      enclosures := enclosures } ⟨opening, r.current⟩ =
        .ok { r.add u with enclosures := enclosures } := by
  have hscope : (names.reverse ++ r.scope).drop opening.binders.toNat = r.scope :=
    List.drop_left' (by rw [List.length_reverse, hn])
  rw [add_of_current_none rfl, leave]
  simp only [enter, ht, hscope, add_with_enclosures, ← hr]
  rfl

theorem unwinds_self (h : r.heading = none) : r.Unwinds r := by
  refine ⟨h, [], rfl, by simp, ?_⟩
  intro stop enclosures
  rfl

theorem Unwinds.abstraction {names : List String} (hr : r.heading = none)
    (hn : n.toNat = names.length) (ht : t.addBinders n = .ok u)
    (h : r'.Unwinds
      (({ r with scope := names.reverse ++ r.scope }.enter (.abstraction n)).add t)) :
    r'.Unwinds (r.add u) := by
  obtain ⟨hheading, inner, henclosures, hinner, hleaves⟩ := h
  refine ⟨hheading, inner ++ [⟨.abstraction n, r.current⟩], ?_, ?_, ?_⟩
  · rw [henclosures, enclosures_add, enclosures_add, enter, List.append_assoc]
    rfl
  · intro e he
    rcases List.mem_append.mp he with he | he
    · exact hinner e he
    · rw [List.mem_singleton.mp he]
      rfl
  · intro stop enclosures
    rw [List.foldlM_append, hleaves]
    show leave stop _ _ >>= pure = _
    rw [leave_entered stop (show (Opening.abstraction n).binders.toNat = _ from hn) ht hr]
    rfl

theorem Unwinds.leaveAbstractions (h : r.Unwinds outer)
    (houter : ∀ e ∈ outer.enclosures.head?, e.opening.isAbstraction = false)
    (stop : Located Stop) : r.leaveAbstractions stop = .ok outer := by
  obtain ⟨hheading, inner, henclosures, hinner, hleaves⟩ := h
  have htake : outer.enclosures.takeWhile (·.opening.isAbstraction) = [] := by
    cases hes : outer.enclosures with
    | nil => rfl
    | cons e es => simp [houter e (by rw [hes]; rfl)]
  have hdrop : outer.enclosures.dropWhile (·.opening.isAbstraction) = outer.enclosures := by
    cases hes : outer.enclosures with
    | nil => rfl
    | cons e es => simp [houter e (by rw [hes]; rfl)]
  rw [Reading.leaveAbstractions, henclosures, List.takeWhile_append_of_pos hinner, htake,
    List.append_nil, List.dropWhile_append_of_pos hinner, hdrop]
  exact hleaves stop outer.enclosures

theorem Unwinds.close (hr : r.heading = none)
    (h : r'.Unwinds ((r.enter .group).add t)) (position : Position) :
    r'.close position = .ok (r.add t) := by
  have hgroup := h.leaveAbstractions
    (by rw [enclosures_add]; rintro _ ⟨⟩; rfl) ⟨position, .closing⟩
  have hsize : Opening.group.binders.toNat = ([] : List String).length := rfl
  have hleave :=
    leave_entered ⟨position, .closing⟩ hsize (Term.addBinders_zero t) hr r.enclosures
  rw [add_with_enclosures r] at hleave
  rw [Reading.close, hgroup]
  exact hleave

theorem Unwinds.finish (h : r.Unwinds (outer.add t)) (houter : outer.enclosures = [])
    (position : Position) : r.finish position = .ok (outer.add t) := by
  have hall := h.leaveAbstractions (by rw [enclosures_add, houter]; simp) ⟨position, .endOfText⟩
  have hsome : (outer.add t).current.isNone = false := by
    unfold add
    cases outer.current <;> rfl
  rw [Reading.finish, h.heading_eq, Checked.bind_eq_ok_iff]
  refine ⟨outer.add t, hall, ?_⟩
  simp only [enclosures_add, houter]
  rw [Checked.bind_eq_ok_iff]
  refine ⟨outer.add t, rfl, ?_⟩
  rw [hsome]
  rfl

/-! ## Tokens -/

theorem step_name {name : Located String} (hr : r.heading = none) :
    r.step name.token = .ok (r.addName name.position name.value) := by
  rw [step, hr]
  rfl

theorem step_lambda {sign : Char} (hr : r.heading = none) :
    r.step ⟨p, .lambda sign⟩ = .ok { r with heading := some 0 } := by
  rw [step, hr]
  rfl

theorem step_opening (hr : r.heading = none) : r.step ⟨p, .opening⟩ = .ok (r.enter .group) := by
  rw [step, hr]
  rfl

theorem step_closing (hr : r.heading = none) : r.step ⟨p, .closing⟩ = r.close p := by
  rw [step, hr]

theorem step_stray {sign : Char} (hr : r.heading = none) :
    r.step ⟨p, .separator sign⟩ = .ok (r.report p (.strayToken (.separator sign))) := by
  rw [step, hr]
  rfl

theorem step_separator {sign : Char} (hr : r.heading = some n) :
    r.step ⟨p, .separator sign⟩ = .ok (r.enter (.abstraction n)) := by
  rw [step, hr]
  rfl

/-! ## Lists of tokens -/

theorem foldlM_step_names {names : List (Located String)} (hr : r.heading = some n)
    (hsize : n.toNat + names.length < UInt32.size) :
    ∃ m : UInt32, m.toNat = n.toNat + names.length ∧ (names.map Located.token).foldlM step r =
      .ok { r with
        scope := (names.map Located.value).reverse ++ r.scope
        heading := some m } := by
  induction names generalizing r n with
  | nil =>
    refine ⟨n, rfl, ?_⟩
    rw [← hr]
    rfl
  | cons name names ih =>
    rw [List.length_cons] at hsize ⊢
    have hnext : (n + 1).toNat = n.toNat + 1 :=
      Nat.mod_eq_of_lt (show n.toNat + 1 < UInt32.size by omega)
    have hadd : Word.add .tooManyBinders n 1 = .ok (n + 1) := Word.add_eq_ok_iff.mpr hnext
    have hstep : r.step name.token =
        .ok { r with scope := name.value :: r.scope, heading := some (n + 1) } := by
      rw [step, hr]
      simp only [stepHeading, Located.token, hadd]
      rfl
    obtain ⟨m, hm, hrest⟩ :=
      ih (r := { r with scope := name.value :: r.scope, heading := some (n + 1) }) rfl
        (by rw [hnext]; omega)
    refine ⟨m, by omega, ?_⟩
    rw [List.map_cons, List.foldlM_cons, hstep]
    refine hrest.trans ?_
    rw [List.map_cons, List.reverse_cons, List.append_assoc]
    rfl

theorem foldlM_step_group (hr : r.heading = none) (houter : outer.heading = none)
    (hts : ts.foldlM step (r.enter .group) = .ok r')
    (hunwinds : r'.Unwinds ((outer.enter .group).add t)) :
    ((⟨p, .opening⟩ :: ts ++ [⟨q, .closing⟩] : List (Located Token)).foldlM step r) =
      .ok (outer.add t) := by
  rw [List.cons_append, List.foldlM_cons, step_opening hr]
  show (ts ++ [(⟨q, .closing⟩ : Located Token)]).foldlM step (r.enter .group) = _
  rw [List.foldlM_append, hts]
  show r'.step ⟨q, .closing⟩ >>= pure = _
  rw [step_closing hunwinds.heading_eq, hunwinds.close houter]
  rfl

theorem foldlM_step_abstraction (lambda separator : Char) (us : List (Located Token))
    {names : List (Located String)} (hr : r.heading = none) (hn : n.toNat = names.length) :
    (⟨p, .lambda lambda⟩ :: names.map Located.token ++
        ⟨q, .separator separator⟩ :: us).foldlM step r =
      us.foldlM step
        ({ r with scope := (names.map Located.value).reverse ++ r.scope }.enter
          (.abstraction n)) := by
  have hsize : (0 : UInt32).toNat + names.length < UInt32.size := by
    rw [UInt32.toNat_zero, Nat.zero_add, ← hn]
    exact n.toNat_lt
  obtain ⟨m, hm, hnames⟩ := foldlM_step_names (r := { r with heading := some 0 }) rfl hsize
  rw [UInt32.toNat_zero, Nat.zero_add, ← hn, UInt32.toNat_inj] at hm
  rw [List.foldlM_append, List.foldlM_cons, step_lambda hr]
  show (names.map Located.token).foldlM step { r with heading := some 0 } >>= _ = _
  rw [hnames, hm]
  show (⟨q, .separator separator⟩ :: us).foldlM step { r with
    scope := (names.map Located.value).reverse ++ r.scope
    heading := some n } = _
  rw [List.foldlM_cons, step_separator rfl]
  rfl

/-! ## Reading what the grammar derives -/

theorem exists_takesPhrase_name {name : Located String} (hr : r.heading = none)
    (hsize : r.scope.length < UInt32.size) :
    ∃ t, r.TakesPhrase [name.token] (.name name) .operand t := by
  have hread : [name.token].foldlM step r = .ok (r.addName name.position name.value) := by
    rw [List.foldlM_cons, step_name hr]
    rfl
  by_cases hmem : name.value ∈ r.scope
  · obtain ⟨index, hindex⟩ := Option.isSome_iff_exists.mp (List.isSome_idxOf?.mpr hmem)
    have hlt : index < r.scope.length := (List.idxOf?_eq_some_iff.mp hindex).1
    refine ⟨.var 0 index.toUInt32, fun _ => Term.translates_name hindex (by omega),
      Nat.zero_le _, ?_⟩
    rw [Phrase.unknown, if_pos hmem]
    show _ = Except.ok ((r.note []).add _)
    rw [hread, addName, hindex, note_nil]
  · refine ⟨.nil, fun hnil => ?_, Nat.zero_le _, ?_⟩
    · rw [Phrase.unknown, if_neg hmem] at hnil
      cases hnil
    · rw [Phrase.unknown, if_neg hmem]
      show _ = Except.ok ((r.note [name]).add _)
      rw [hread, addName, List.idxOf?_eq_none_iff.mpr hmem, note_singleton]

namespace TakesPhrase

section
variable {m func arg : Phrase} {tf ta : Term}

theorem group (hr : r.heading = none) (h : (r.enter .group).TakesPhrase ts m .term t) :
    r.TakesPhrase (⟨p, .opening⟩ :: ts ++ [⟨q, .closing⟩]) m .operand t := by
  obtain ⟨r', hr', hunwinds⟩ := h.takes rfl
  refine ⟨h.translates, ?_, ?_⟩
  · rw [List.length_append, List.length_cons]
    exact Nat.le_trans h.binders_le (by omega)
  · have houter : (r.note (m.unknown r.scope)).heading = none := hr
    exact foldlM_step_group hr houter hr' hunwinds

theorem operand (h : r.TakesPhrase ts m .operand t) : r.TakesPhrase ts m .application t :=
  ⟨h.translates, h.binders_le, fun _ => h.takes⟩

theorem application (hr : r.heading = none) (h : r.TakesPhrase ts m .application t) :
    r.TakesPhrase ts m .term t := by
  refine ⟨h.translates, h.binders_le, fun hcurrent => ⟨_, h.takes hcurrent, unwinds_self ?_⟩⟩
  rw [heading_add]
  exact hr

theorem abstraction (h : r.TakesPhrase ts m .abstraction t) : r.TakesPhrase ts m .term t :=
  ⟨h.translates, h.binders_le, fun _ => h.takes⟩

theorem translates_apply {c : Category} (hf : r.TakesPhrase ts func .application tf)
    (ha : ((r.note (func.unknown r.scope)).add tf).TakesPhrase us arg c ta)
    (hnil : (func.apply arg).unknown r.scope = []) :
    (tf.apply ta).Translates r.scope (func.apply arg).named := by
  obtain ⟨hnilf, hnila⟩ := List.append_eq_nil_iff.mp hnil
  have hta := ha.translates
  rw [scope_add] at hta
  exact (hf.translates hnilf).apply (hta hnila)

theorem argument (hf : r.TakesPhrase ts func .application tf)
    (ha : ((r.note (func.unknown r.scope)).add tf).TakesPhrase us arg .operand ta) :
    r.TakesPhrase (ts ++ us) (func.apply arg) .application (tf.apply ta) := by
  refine ⟨translates_apply hf ha, Nat.zero_le _, fun hcurrent => ?_⟩
  have harg : us.foldlM step _ = _ := ha.takes
  rw [scope_add, note_add_note_add hcurrent] at harg
  rw [List.foldlM_append, hf.takes hcurrent]
  exact harg

theorem lastArgument (hf : r.TakesPhrase ts func .application tf)
    (ha : ((r.note (func.unknown r.scope)).add tf).TakesPhrase us arg .abstraction ta) :
    r.TakesPhrase (ts ++ us) (func.apply arg) .term (tf.apply ta) := by
  refine ⟨translates_apply hf ha, Nat.zero_le _, fun hcurrent => ?_⟩
  obtain ⟨r', hr', hunwinds⟩ := ha.takes
  rw [scope_add, note_add_note_add hcurrent] at hunwinds
  refine ⟨r', ?_, hunwinds⟩
  rw [List.foldlM_append, hf.takes hcurrent]
  exact hr'

theorem binders {lambda separator : Char} {names : List (Located String)} (hr : r.heading = none)
    (hn : n.toNat = names.length)
    (h : ({ r with scope := (names.map Located.value).reverse ++ r.scope }.enter
      (.abstraction n)).TakesPhrase ts m .term t) (hu : t.addBinders n = .ok u) :
    r.TakesPhrase
      (⟨p, .lambda lambda⟩ :: names.map Located.token ++ ⟨q, .separator separator⟩ :: ts)
      (.abstraction names m) .abstraction u := by
  have hvalues : n.toNat = (names.map Located.value).length := by rw [List.length_map, hn]
  obtain ⟨r', hr', hunwinds⟩ := h.takes rfl
  refine ⟨fun hnil => (h.translates hnil).addBinders hvalues hu, ?_, r',
    (foldlM_step_abstraction lambda separator ts hr hn).trans hr',
    Unwinds.abstraction (r := r.note _) hr hvalues hu hunwinds⟩
  have hbinders := (Term.addBinders_eq_ok_iff.mp hu).1
  have hinner := h.binders_le
  simp only [List.length_append, List.length_cons, List.length_map]
  omega

end

end TakesPhrase

/-- An argument is taken by the reading that has taken the function. -/
theorem IsTaken.exists_apply {func arg : Phrase} {c : Category} (hf : IsTaken ts func .application)
    (ha : IsTaken us arg c) (hr : r.heading = none)
    (hsize : r.scope.length + (ts ++ us).length ≤ UInt32.size - 2) :
    ∃ tf ta, r.TakesPhrase ts func .application tf ∧
      ((r.note (func.unknown r.scope)).add tf).TakesPhrase us arg c ta := by
  rw [List.length_append] at hsize
  obtain ⟨tf, htf⟩ := hf r hr (by omega)
  have hscope : ((r.note (func.unknown r.scope)).add tf).scope.length = r.scope.length := by
    rw [scope_add]
    rfl
  obtain ⟨ta, hta⟩ := ha _ ((heading_add (r.note _) tf).trans hr) (by rw [hscope]; omega)
  exact ⟨tf, ta, htf, hta⟩

/-- What the grammar derives is taken, if a word can count the names. -/
theorem isTaken_of_phrased {c : Category} {m : Phrase} (h : Phrased 0 c ts m) :
    IsTaken ts m c := by
  induction h with
  | name =>
    intro r hr hsize
    rw [List.length_singleton] at hsize
    exact exists_takesPhrase_name hr (by omega)
  | group h ih =>
    intro r hr hsize
    rw [List.length_append, List.length_cons] at hsize
    obtain ⟨t, ht⟩ := ih (r.enter .group) rfl (by simp [enter]; omega)
    exact ⟨t, ht.group hr⟩
  | operand h ih =>
    intro r hr hsize
    obtain ⟨t, ht⟩ := ih r hr hsize
    exact ⟨t, ht.operand⟩
  | argument hf ha ihf iha =>
    intro r hr hsize
    obtain ⟨tf, ta, htf, hta⟩ := ihf.exists_apply iha hr hsize
    exact ⟨_, htf.argument hta⟩
  | application h ih =>
    intro r hr hsize
    obtain ⟨t, ht⟩ := ih r hr hsize
    exact ⟨t, ht.application hr⟩
  | abstraction h ih =>
    intro r hr hsize
    obtain ⟨t, ht⟩ := ih r hr hsize
    exact ⟨t, ht.abstraction⟩
  | lastArgument hf ha ihf iha =>
    intro r hr hsize
    obtain ⟨tf, ta, htf, hta⟩ := ihf.exists_apply iha hr hsize
    exact ⟨_, htf.lastArgument hta⟩
  | @binders p q lambda separator names ts m hnames h ih =>
    intro r hr hsize
    simp only [List.length_append, List.length_cons, List.length_map] at hsize
    have hn : names.length.toUInt32.toNat = names.length :=
      Nat.mod_eq_of_lt (show names.length < UInt32.size by omega)
    obtain ⟨t, ht⟩ := ih
      ({ r with scope := (names.map Located.value).reverse ++ r.scope }.enter
        (.abstraction names.length.toUInt32)) rfl (by simp [enter]; omega)
    have hbinders := ht.binders_le
    obtain ⟨u, hu⟩ := Term.exists_addBinders (t := t) (n := names.length.toUInt32) (by omega)
    exact ⟨u, ht.binders hr hn hu⟩

end

end Reading

end WeakHead
