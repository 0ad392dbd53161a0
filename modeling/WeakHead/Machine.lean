import WeakHead.Spine
import WeakHead.Stream
import WeakHead.Term

/-!
# The machine

A machine that evaluates a program by name, step by step, and reads and writes
bits on the way.
-/

namespace WeakHead

/-!
## States of the machine

The machine evaluates a program by name: it looks only at the head of the
term in focus and keeps the pending arguments on a spine. A binder without an
argument is given a placeholder, an atom of its own; once an operation has
been performed every placeholder is `Term.nil`.
-/

structure Settings where
  trace : Bool
  maxSteps : Option Nat
  deriving DecidableEq, Repr

structure Tally where
  betas : Nat
  unwinds : Nat
  operations : Nat
  deriving DecidableEq, Repr

def Tally.steps (t : Tally) : Nat := t.betas + t.unwinds + t.operations

/-! ### Placeholders -/

inductive Placeholders where
  | numbered (next : UInt32)
  | blank
  deriving DecidableEq, Repr

namespace Placeholders

/-- The next `n` placeholders in the order of a spine. The binders are filled from the outermost
in, so the first id goes to the back; after the greatest id comes `0`. -/
def take : Placeholders → Nat → List Term × Placeholders
  | .numbered next, n =>
    ((List.range n).reverse.map fun k => .atom 0 (next + k.toUInt32), .numbered (next + n.toUInt32))
  | .blank, n => (List.replicate n .nil, .blank)

end Placeholders

/-! ### The machine -/

structure Machine where
  settings : Settings
  focus : Term
  spine : Spine
  placeholders : Placeholders
  input : Input
  output : Output
  tally : Tally
  deriving DecidableEq, Repr

inductive StreamFailure where
  | input (reason : String)
  | sinkFull
  | flushRefused
  deriving DecidableEq, Repr

def StreamFailure.message : StreamFailure → String
  | .input reason => "I/O error: " ++ reason
  | .sinkFull => "I/O error: sink full"
  | .flushRefused => "I/O error: flush failed"

/-- A run is halted by an atom that is no operation, with its first argument, and stuck at a
variable that no binder of the program binds. -/
inductive Ending where
  | halted (atom : UInt32) (whnf : Term)
  | stuck (index : UInt32)
  | outOfSteps
  | failed (cause : StreamFailure)
  deriving DecidableEq, Repr

inductive Progress where
  | running (m : Machine)
  | ended (ending : Ending) (m : Machine)
  | faulted (cause : Fault)
  deriving DecidableEq, Repr

namespace Progress

def ofChecked : Checked Machine → Progress
  | .ok m => .running m
  | .error fault => .faulted fault

@[inline] def andThen (p : Progress) (next : Machine → Progress) : Progress :=
  match p with
  | .running m => next m
  | .ended ending m => .ended ending m
  | .faulted fault => .faulted fault

end Progress

def Machine.start (settings : Settings) (program : Term) (input : Input) (sink : Sink) :
    Machine where
  settings := settings
  focus := program
  spine := .empty
  placeholders := .numbered 0
  input := input
  output := .ofSink sink
  tally := ⟨0, 0, 0⟩

/-!
## Steps of the machine

The term in focus decides what happens. Its binders take arguments off the
spine; an application puts its argument there; an atom drops all arguments
but the nearest, which comes into focus, and performs its operation. Any
other atom stops the machine, and so does a loose variable.
-/

namespace Machine

/-! ### Output -/

def flush (m : Machine) : Progress :=
  let (done, sink) := m.output.sink.flush
  let m := { m with output := { m.output with sink := sink } }
  if done then .running m else .ended (.failed .flushRefused) m

def stop (m : Machine) (ending : Ending) : Progress :=
  m.flush.andThen fun m => .ended ending m

def announce (m : Machine) (id : UInt32) (argument : Term) : Progress :=
  if m.settings.trace then
    let line := "operation " ++ id.toNat.repr ++ " with " ++ argument.render ++ "\n"
    let (taken, sink) := m.output.sink.write line.toUTF8.data
    let m := { m with output := { m.output with sink := sink } }
    if taken then .running m else .ended (.failed .sinkFull) m
  else .running m

/-! ### Rules -/

def fillSpine (m : Machine) (n : Nat) : Machine :=
  let missing := n - m.spine.size
  if missing = 0 then m
  else
    let (atoms, placeholders) := m.placeholders.take missing
    { m with
      spine := (m.spine.reserveFront missing).overwriteFront atoms
      placeholders := placeholders }

/-- All binders of the focus take an argument each, the outermost the nearest. -/
def beta (m : Machine) : Checked Machine := do
  let n := m.focus.binders.toNat
  let m := m.fillSpine n
  let focus ← m.focus.body.instantiate (← m.spine.back n)
  let spine ← m.spine.dropBack n
  return { m with
    focus := focus
    spine := spine
    tally := { m.tally with betas := m.tally.betas + 1 } }

def unwind (m : Machine) (func arg : Term) : Machine :=
  { m with
    focus := func
    spine := m.spine.push arg
    tally := { m.tally with unwinds := m.tally.unwinds + 1 } }

/-- Reads a bit onto the spine. What has been written is flushed before input is waited for. -/
def read (m : Machine) : Progress :=
  let ready := if m.input.needsByte then m.flush else .running m
  ready.andThen fun m =>
    match m.input.readBit with
    | .ok (bit, input) => .running { m with input := input, spine := m.spine.push (.ofBit bit) }
    | .error reason => .ended (.failed (.input reason)) m

def write (m : Machine) (bit : Bool) : Progress :=
  let (taken, output) := m.output.writeBit bit
  let m := { m with output := output }
  if taken then .running m else .ended (.failed .sinkFull) m

def execute (m : Machine) (op : BitOp) : Progress :=
  let executed := match op with
    | .read => m.read
    | .write bit => m.write bit
  executed.andThen fun m =>
    .running { m with
      placeholders := .blank
      tally := { m.tally with operations := m.tally.operations + 1 } }

def dispatch (m : Machine) (id : UInt32) : Progress :=
  let argument := m.spine.nearest
  let m := { m with focus := argument, spine := m.spine.clear }
  (m.announce id argument).andThen fun m =>
    match BitOp.ofAtomId? id with
    | some op => m.execute op
    | none => m.stop (.halted id argument)

/-! ### The step -/

def isOutOfSteps (m : Machine) : Bool :=
  m.settings.maxSteps.any (· ≤ m.tally.steps)

def step (m : Machine) : Progress :=
  if m.isOutOfSteps then m.stop .outOfSteps
  else if m.focus.binders ≠ 0 then .ofChecked m.beta
  else match m.focus with
    | .app _ _ func arg => .running (m.unwind func arg)
    | .atom _ id => m.dispatch id
    | .var _ index => m.stop (.stuck index)

def run : Nat → Machine → Progress
  | 0, m => .running m
  | n + 1, m =>
    match m.step with
    | .running m => run n m
    | .ended ending m => .ended ending m
    | .faulted fault => .faulted fault

def awaitsInput (m : Machine) : Bool :=
  let reads := match m.focus with
    | .atom binders id => binders == 0 && BitOp.ofAtomId? id == some .read
    | _ => false
  !m.isOutOfSteps && reads && m.input.needsByte && m.input.deliveries.isEmpty

end Machine

end WeakHead
