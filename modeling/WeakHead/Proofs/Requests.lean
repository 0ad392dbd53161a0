import WeakHead.Proofs.SinkCalls

/-!
# What a run requests of its input

An interrupted request is made again and an ended input gives zero bytes, so
an input is one infinite sequence of bytes and failures. A run depends on no
more of this sequence than it requests.
-/

namespace WeakHead

/-! ## Items -/

inductive Item where
  | byte (value : UInt8)
  | failure (reason : String)
  deriving DecidableEq, Repr

def Delivery.item? : Delivery → Option Item
  | .byte value => some (.byte value)
  | .endOfInput => some (.byte 0)
  | .interrupted => none
  | .failure reason => some (.failure reason)

/-- The items of a device, zero bytes for ever at the end. -/
def items (deliveries : List Delivery) (i : Nat) : Item :=
  (deliveries.filterMap Delivery.item?)[i]?.getD (.byte 0)

theorem items_append_zeros (deliveries : List Delivery) (k i : Nat) :
    items (deliveries ++ List.replicate k (.byte 0)) i = items deliveries i := by
  have hzeros : (List.replicate k (Delivery.byte 0)).filterMap Delivery.item? =
      List.replicate k (.byte 0) := List.filterMap_replicate_of_some rfl
  rw [items, items, List.filterMap_append, hzeros]
  by_cases hi : i < (deliveries.filterMap Delivery.item?).length
  · rw [List.getElem?_append_left hi]
  · have hle : (deliveries.filterMap Delivery.item?).length ≤ i := Nat.not_lt.mp hi
    rw [List.getElem?_append_right hle, List.getElem?_eq_none hle, List.getElem?_replicate]
    split <;> rfl

namespace Input

theorem exists_request (n : Nat) : ∀ deliveries : List Delivery,
    ∃ rest k, request n deliveries = (match items deliveries 0 with
        | .byte value => .ok ⟨rest, Byte.toBits value, k⟩
        | .failure reason => .error reason) ∧
      ∀ i, items rest i = items deliveries (i + 1)
  | [] => ⟨[], n, rfl, fun _ => rfl⟩
  | .byte _ :: rest => ⟨rest, n + 1, rfl, fun _ => rfl⟩
  | .endOfInput :: rest => ⟨rest, n, rfl, fun _ => rfl⟩
  | .interrupted :: rest => exists_request n rest
  | .failure _ :: rest => ⟨rest, n, rfl, fun _ => rfl⟩

theorem readBit_of_needsByte {input : Input} (h : input.needsByte = true) :
    input.readBit = (request input.bytesRead input.deliveries).map fun ready =>
      (ready.bits.headD false, { ready with bits := ready.bits.tail }) := by
  unfold readBit
  rw [if_pos h]
  cases request input.bytesRead input.deliveries <;> rfl

theorem readBit_of_not_needsByte {input : Input} (h : ¬ input.needsByte = true) :
    input.readBit = .ok (input.bits.headD false, { input with bits := input.bits.tail }) := by
  unfold readBit
  rw [if_neg h]
  rfl

end Input

/-! ## Inputs that read alike -/

/-- With `q` requests left, no read tells apart two inputs that are related by `S q`. -/
structure ReadAlike (S : Nat → Input → Input → Prop) : Prop where
  needsByte : ∀ {q i₁ i₂}, S q i₁ i₂ → i₂.needsByte = i₁.needsByte
  fewer : ∀ {q i₁ i₂}, S (q + 1) i₁ i₂ → S q i₁ i₂
  readBit : ∀ {q i₁ i₂}, S (q + if i₁.needsByte then 1 else 0) i₁ i₂ →
    match i₁.readBit with
    | .ok (bit, rest) => ∃ rest', i₂.readBit = .ok (bit, rest') ∧ S q rest rest'
    | .error reason => i₂.readBit = .error reason

namespace Input

structure Agrees (q : Nat) (i₁ i₂ : Input) : Prop where
  bits : i₂.bits = i₁.bits
  items : ∀ k < q, items i₂.deliveries k = items i₁.deliveries k

theorem readAlike_agrees : ReadAlike Agrees where
  needsByte h := by rw [needsByte, needsByte, h.bits]
  fewer h := ⟨h.bits, fun k hk => h.items k (Nat.lt_succ_of_lt hk)⟩
  readBit {q i₁ i₂} h := by
    have hneeds : i₂.needsByte = i₁.needsByte := by rw [needsByte, needsByte, h.bits]
    by_cases hn : i₁.needsByte = true
    · have hn' : i₂.needsByte = true := hneeds.trans hn
      rw [if_pos hn] at h
      obtain ⟨rest₁, k₁, hrequest₁, hrest₁⟩ := exists_request i₁.bytesRead i₁.deliveries
      obtain ⟨rest₂, k₂, hrequest₂, hrest₂⟩ := exists_request i₂.bytesRead i₂.deliveries
      have hitems : ∀ k < q, WeakHead.items rest₂ k = WeakHead.items rest₁ k := by
        intro k hk
        rw [hrest₁, hrest₂]
        exact h.items (k + 1) (Nat.succ_lt_succ hk)
      rw [readBit_of_needsByte hn, readBit_of_needsByte hn', hrequest₁, hrequest₂,
        h.items 0 (Nat.zero_lt_succ q)]
      cases WeakHead.items i₁.deliveries 0 with
      | failure reason => rfl
      | byte value => exact ⟨_, rfl, rfl, hitems⟩
    · have hn' : ¬ i₂.needsByte = true := fun e => hn (hneeds.symm.trans e)
      rw [if_neg hn] at h
      rw [readBit_of_not_needsByte hn, readBit_of_not_needsByte hn', h.bits]
      exact ⟨_, rfl, rfl, h.items⟩

def uninterrupted (input : Input) : Input :=
  { input with deliveries := input.deliveries.filter (· ≠ .interrupted) }

theorem eq_of_uninterrupted_eq {i₁ i₂ : Input} (h : i₂.uninterrupted = i₁.uninterrupted) :
    i₂ = { i₁ with deliveries := i₂.deliveries } := by
  obtain ⟨-, hbits, hbytes⟩ := Input.mk.inj h
  rw [← hbits, ← hbytes]

theorem request_uninterrupted (n : Nat) : ∀ deliveries : List Delivery,
    request n (deliveries.filter (· ≠ .interrupted)) = (request n deliveries).map uninterrupted
  | [] => rfl
  | .byte _ :: _ => rfl
  | .endOfInput :: _ => rfl
  | .interrupted :: rest => request_uninterrupted n rest
  | .failure _ :: _ => rfl

theorem readBit_uninterrupted (input : Input) :
    input.uninterrupted.readBit = input.readBit.map fun (bit, rest) => (bit, rest.uninterrupted) := by
  have hneeds : input.uninterrupted.needsByte = input.needsByte := rfl
  by_cases hn : input.needsByte = true
  · rw [readBit_of_needsByte hn, readBit_of_needsByte (hneeds.trans hn)]
    show (request input.bytesRead (input.deliveries.filter _)).map _ = _
    rw [request_uninterrupted]
    cases request input.bytesRead input.deliveries <;> rfl
  · rw [readBit_of_not_needsByte hn, readBit_of_not_needsByte fun e => hn (hneeds.symm.trans e)]
    rfl

theorem readAlike_uninterrupted : ReadAlike fun _ i₁ i₂ => i₂.uninterrupted = i₁.uninterrupted where
  needsByte {q i₁ i₂} h := by
    show i₂.uninterrupted.needsByte = i₁.uninterrupted.needsByte
    rw [h]
  fewer h := h
  readBit {q i₁ i₂} h := by
    have hread := congrArg readBit h
    rw [readBit_uninterrupted, readBit_uninterrupted] at hread
    cases h₁ : i₁.readBit with
    | error reason =>
      rw [h₁] at hread
      cases h₂ : i₂.readBit with
      | error reason' =>
        rw [h₂] at hread
        cases hread
        rfl
      | ok result => rw [h₂] at hread; cases hread
    | ok result =>
      rw [h₁] at hread
      cases h₂ : i₂.readBit with
      | error reason' => rw [h₂] at hread; cases hread
      | ok result' =>
        rw [h₂] at hread
        obtain ⟨hbit, hrest⟩ := Prod.mk.inj (Except.ok.inj hread)
        exact ⟨result'.2, by rw [← hbit], hrest⟩

end Input

/-! ## Steps -/

def Machine.withInput (input : Input) (m : Machine) : Machine := { m with input := input }

def Progress.SameBut (R : Input → Input → Prop) (p p' : Progress) : Prop :=
  ∃ input, p' = p.map (Machine.withInput input) ∧ ∀ m, p.machine? = some m → R m.input input

namespace Machine

/-- Whether the next step requests a byte: it is to read, no bit is left, and the sink takes all
that comes before. -/
def requestsByte (m : Machine) : Bool :=
  m.operation? == some .read && m.input.needsByte &&
    (m.output.sink.answerAll m.calls).1.isNone

theorem requestsByte_of_read {m : Machine} (hop : m.operation? = some .read)
    (hanswer : (m.output.sink.answerAll m.calls).1 = none) :
    m.requestsByte = m.input.needsByte := by
  simp [requestsByte, hop, hanswer]

theorem requestsByte_of_ne_read {m : Machine} (hop : m.operation? ≠ some .read) :
    m.requestsByte = false := by
  simp [requestsByte, hop]

def requestCount (n : Nat) (m : Machine) : Nat :=
  (history (fun m => [m.requestsByte]) n m).count true

theorem requestCount_succ (n : Nat) (m : Machine) : requestCount (n + 1) m =
    (if m.requestsByte then 1 else 0) + match m.step with
      | .running m => requestCount n m
      | .ended _ _ => 0
      | .faulted _ => 0 := by
  rw [requestCount, history, List.count_append]
  cases m.step <;> cases m.requestsByte <;> rfl

section
variable {S : Nat → Input → Input → Prop} (hS : ReadAlike S) {q : Nat} {m : Machine}
  {input : Input}

theorem sameBut_of_input_eq {R : Input → Input → Prop} {p : Progress} (hR : R m.input input)
    (hp : ∀ m', p.machine? = some m' → m'.input = m.input) :
    p.SameBut R (p.map (withInput input)) :=
  ⟨input, rfl, fun m' hm' => by rw [hp m' hm']; exact hR⟩

theorem sameBut_withSink {R : Input → Input → Prop} {p p' : Progress} (h : p.SameBut R p')
    (s : Sink) : (p.map (withSink s)).SameBut R (p'.map (withSink s)) := by
  obtain ⟨input, rfl, hR⟩ := h
  cases p with
  | running m => exact ⟨input, rfl, fun _ hm' => by cases hm'; exact hR m rfl⟩
  | ended e m => exact ⟨input, rfl, fun _ hm' => by cases hm'; exact hR m rfl⟩
  | faulted fault => exact ⟨input, rfl, fun _ hm' => by cases hm'⟩

include hS

theorem weaken_ite (b : Bool) {i₁ i₂ : Input} (h : S (q + if b then 1 else 0) i₁ i₂) :
    S q i₁ i₂ := by
  cases b with
  | true => exact hS.fewer h
  | false => exact h

theorem calls_withInput (h : S q m.input input) : (m.withInput input).calls = m.calls := by
  have hneeds : (m.withInput input).input.needsByte = m.input.needsByte := hS.needsByte h
  unfold calls executeCalls
  rw [hneeds]
  rfl

theorem settled_withInput (h : S (q + if m.requestsByte then 1 else 0) m.input input)
    (hanswer : (m.output.sink.answerAll m.calls).1 = none) :
    m.settled.SameBut (S q) (m.withInput input).settled := by
  have hkept := weaken_ite hS m.requestsByte h
  unfold settled
  rw [show (m.withInput input).rule = m.rule from rfl]
  cases hr : m.rule with
  | stop ending => exact sameBut_of_input_eq hkept fun _ hm' => by cases hm'; rfl
  | unwind func arg => exact sameBut_of_input_eq hkept fun _ hm' => by cases hm'; rfl
  | beta =>
    have hbeta : (m.withInput input).beta = m.beta.map (withStreams m.settings input m.output) :=
      m.beta_withStreams m.settings input m.output
    dsimp only
    rw [hbeta]
    cases hb : m.beta with
    | error fault => exact sameBut_of_input_eq hkept fun _ hm' => by cases hm'
    | ok m' =>
      obtain ⟨focus, spine, placeholders, rfl⟩ := beta_changes hb
      exact sameBut_of_input_eq (m := m) hkept fun _ hm' => by cases hm'; rfl
  | dispatch id =>
    dsimp only
    cases hop : BitOp.ofAtomId? id with
    | none => exact sameBut_of_input_eq hkept fun _ hm' => by cases hm'; rfl
    | some op =>
      cases op with
      | write bit => exact sameBut_of_input_eq hkept fun _ hm' => by cases hm'; rfl
      | read =>
        have hread : m.operation? = some .read := by simp only [operation?, hr, hop]
        rw [requestsByte_of_read hread hanswer] at h
        have hread := hS.readBit h
        unfold executed
        rw [show (m.withInput input).takeNearest.input = input from rfl,
          show m.takeNearest.input = m.input from rfl]
        cases hbit : m.input.readBit with
        | error reason =>
          rw [hbit] at hread
          rw [hread]
          exact sameBut_of_input_eq hkept fun _ hm' => by cases hm'; rfl
        | ok result =>
          rw [hbit] at hread
          obtain ⟨rest, hrest, hS'⟩ := hread
          rw [hrest]
          exact ⟨rest, rfl, fun _ hm' => by cases hm'; exact hS'⟩

theorem step_withInput (h : S (q + if m.requestsByte then 1 else 0) m.input input) :
    m.step.SameBut (S q) (m.withInput input).step := by
  have hkept := weaken_ite hS m.requestsByte h
  have hcaller : (m.withInput input).caller = m.caller.withInput input ∧
      m.caller.input = m.input := by
    unfold caller
    rw [show (m.withInput input).rule = m.rule from rfl]
    cases m.rule <;> exact ⟨rfl, rfl⟩
  have hsettled := settled_withInput hS h
  rw [step_eq, step_eq, calls_withInput hS hkept, hcaller.1]
  unfold calling
  rw [show (m.caller.withInput input).output = m.caller.output from rfl, output_caller]
  generalize m.output.sink.answerAll m.calls = answer at hsettled ⊢
  rcases answer with ⟨cause?, s⟩
  cases cause? with
  | none => exact sameBut_withSink (hsettled rfl) s
  | some cause =>
    exact sameBut_of_input_eq hkept fun _ hm' => by cases hm'; exact hcaller.2

theorem run_withInput (n : Nat) (h : S (requestCount n m) m.input input) :
    (run n m).SameBut (S 0) (run n (m.withInput input)) := by
  induction n generalizing m input with
  | zero => exact sameBut_of_input_eq (m := m) h fun _ hm' => by cases hm'; rfl
  | succ n ih =>
    -- the first step uses up the item that it requests, if it does
    rw [requestCount_succ, Nat.add_comm] at h
    obtain ⟨input', hstep, hS'⟩ := step_withInput hS h
    rw [run_succ, run_succ, hstep]
    cases hs : m.step with
    | running m' =>
      rw [hs] at hS'
      exact ih (hS' m' rfl)
    | ended e m' =>
      rw [hs] at hS'
      exact ⟨input', rfl, hS'⟩
    | faulted fault => exact ⟨input', rfl, fun _ hm' => by cases hm'⟩

end

/-- **A run depends on no more of its input than it requests.** On two inputs that bring the same
items as far as the run on the first requests them, the runs are the same but for the input that
is left. If only interruptions differ, then so do only the deliveries that are left. -/
theorem run_depends_on_requests (settings : Settings) (program : Term) (sink : Sink)
    (deliveries deliveries' : List Delivery) (n : Nat) :
    let m deliveries := start settings program (.ofDeliveries deliveries) sink
    ((∀ i < requestCount n (m deliveries), items deliveries i = items deliveries' i) →
      ∃ input, run n (m deliveries') = (run n (m deliveries)).map (withInput input)) ∧
    (deliveries.filter (· ≠ .interrupted) = deliveries'.filter (· ≠ .interrupted) →
      ∃ rest, run n (m deliveries') = (run n (m deliveries)).map fun m' =>
        m'.withInput { m'.input with deliveries := rest }) ∧
    ∀ k, ∃ input, run n (m (deliveries ++ List.replicate k (.byte 0))) =
      (run n (m deliveries)).map (withInput input) := by
  intro m
  have hitems : ∀ deliveries',
      (∀ i < requestCount n (m deliveries), items deliveries i = items deliveries' i) →
        ∃ input, run n (m deliveries') = (run n (m deliveries)).map (withInput input) := by
    intro deliveries' h
    have hagrees : Input.Agrees (requestCount n (m deliveries)) (m deliveries).input
        (.ofDeliveries deliveries') := ⟨rfl, fun i hi => (h i hi).symm⟩
    obtain ⟨input, hrun, -⟩ := run_withInput Input.readAlike_agrees n hagrees
    exact ⟨input, hrun⟩
  refine ⟨hitems deliveries', ?_, ?_⟩
  · intro h
    have hsame : Input.uninterrupted (.ofDeliveries deliveries') =
        (m deliveries).input.uninterrupted := by
      show Input.mk (deliveries'.filter _) [] 0 = Input.mk (deliveries.filter _) [] 0
      rw [h]
    obtain ⟨input, hrun, hinput⟩ := run_withInput Input.readAlike_uninterrupted n hsame
    refine ⟨input.deliveries, hrun.trans (Progress.map_congr ?_)⟩
    intro m' hm'
    exact congrArg (withInput · m') (Input.eq_of_uninterrupted_eq (hinput m' hm'))
  · intro k
    exact hitems _ fun i _ => (items_append_zeros deliveries k i).symm

theorem run_depends_on_requests_echo :
    let program := ((Term.var 0 2).apply (((((Term.var 0 0).apply (.var 0 1)).apply
      (.var 0 2)).apply (.var 0 4)).withBinders 1)).withBinders 4
    let m deliveries := start ⟨true, none⟩ program (.ofDeliveries deliveries) (.limited none none)
    let deliveries := [.interrupted, .byte 0xA5, .byte 1]
    let failing := [.byte 0xA5, .failure "gone"]
    let interrupted := [.byte 0xA5, .interrupted, .byte 1]
    (∀ i < requestCount 10 (m deliveries), items deliveries i = items failing i) ∧
      (∃ input, run 10 (m failing) = (run 10 (m deliveries)).map (withInput input)) ∧
      deliveries.filter (· ≠ .interrupted) = interrupted.filter (· ≠ .interrupted) ∧
      ∃ rest, run 10 (m interrupted) = (run 10 (m deliveries)).map fun m' =>
        m'.withInput { m'.input with deliveries := rest } := by
  -- the program reads one bit, so what a second request would bring is not seen
  intro program m deliveries failing interrupted
  have hone : requestCount 10 (m deliveries) = 1 := by decide +kernel
  have hitems : ∀ i < requestCount 10 (m deliveries), items deliveries i = items failing i := by
    intro i hi
    rw [hone, Nat.lt_one_iff] at hi
    rw [hi]
    rfl
  have hfilter : deliveries.filter (· ≠ .interrupted) = interrupted.filter (· ≠ .interrupted) := by
    decide
  exact ⟨hitems,
    (run_depends_on_requests ⟨true, none⟩ program (.limited none none) deliveries failing 10).1
      hitems, hfilter,
    (run_depends_on_requests ⟨true, none⟩ program (.limited none none) deliveries interrupted
      10).2.1 hfilter⟩

end Machine

end WeakHead
