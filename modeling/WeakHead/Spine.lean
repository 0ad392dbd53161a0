import WeakHead.Term

/-!
# Spines

The pending arguments of a head, in the order of a double-ended list: the
back is the argument nearest the head. They lie in consecutive slots, with
free slots before and after them, so that arguments can be added at both
ends. A free slot holds `Term.nil`. Slots are never given back.
-/

namespace WeakHead

/-- The arguments are the slots from `first` up to `stop`, exclusive. -/
structure Spine where
  slots : Array Term
  first : Nat
  stop : Nat
  deriving DecidableEq, Repr

namespace Spine

def empty : Spine := ⟨#[], 0, 0⟩

instance : Inhabited Spine := ⟨empty⟩

def size (s : Spine) : Nat := s.stop - s.first

def isEmpty (s : Spine) : Bool := s.first == s.stop

def capacity (s : Spine) : Nat := s.slots.size

def toArray (s : Spine) : Array Term := s.slots.extract s.first s.stop

def toList (s : Spine) : List Term := s.toArray.toList

/-! ## Room -/

def free (slots : Array Term) (start : Nat) : Nat → Array Term
  | 0 => slots
  | n + 1 => free (slots.setIfInBounds (start + n) .nil) start n

def leastCapacity : Nat := 16

def doubled (needed capacity : Nat) : Nat :=
  if needed ≤ capacity ∨ capacity = 0 then capacity else doubled needed (2 * capacity)
termination_by needed - capacity
decreasing_by omega

def relocate (s : Spine) (front capacity : Nat) : Spine :=
  let stop := front + s.size
  { slots := Array.replicate front .nil ++ s.toArray ++ Array.replicate (capacity - stop) .nil
    first := front
    stop := stop }

/-! ## The back -/

/-- Adds an argument at the back. With no free slot after the arguments they move to the start, and
if they are there already the capacity doubles. -/
def push (s : Spine) (t : Term) : Spine :=
  let s :=
    if s.stop < s.capacity then s
    else if 0 < s.first then s.relocate 0 s.capacity
    else s.relocate 0 (max (2 * s.capacity) leastCapacity)
  { s with slots := s.slots.setIfInBounds s.stop t, stop := s.stop + 1 }

/-- The last `n` slots before the end, front first. Beyond the arguments these are free ones. -/
def back (s : Spine) (n : Nat) : Checked (Array Term) :=
  if n ≤ s.stop then .ok (s.slots.extract (s.stop - n) s.stop) else .error .spineUnderflow

def dropBack (s : Spine) (n : Nat) : Checked Spine :=
  if n ≤ s.size then
    .ok { s with slots := free s.slots (s.stop - n) n, stop := s.stop - n }
  else .error .spineUnderflow

def popBack? (s : Spine) : Option (Term × Spine) :=
  if s.isEmpty then none
  else
    let last := s.stop - 1
    some (s.slots[last]?.getD .nil,
      { s with slots := s.slots.setIfInBounds last .nil, stop := last })

def nearest (s : Spine) : Term :=
  if s.isEmpty then .nil else s.slots[s.stop - 1]?.getD .nil

/-! ## The front -/

/-- Makes the `n` slots before the arguments arguments too. If there are fewer, the arguments move
back far enough, into more slots where they have to. -/
def reserveFront (s : Spine) (n : Nat) : Spine :=
  if n ≤ s.first then { s with first := s.first - n }
  else
    let capacity := doubled (n + s.size) (max s.capacity leastCapacity)
    { s.relocate n capacity with first := 0 }

def store (slots : Array Term) (start : Nat) : List Term → Array Term
  | [] => slots
  | t :: ts => store (slots.setIfInBounds start t) (start + 1) ts

def overwriteFront (s : Spine) (ts : List Term) : Spine :=
  { s with slots := store s.slots s.first ts }

def popFront? (s : Spine) : Option (Term × Spine) :=
  if s.isEmpty then none
  else
    some (s.slots[s.first]?.getD .nil,
      { s with slots := s.slots.setIfInBounds s.first .nil, first := s.first + 1 })

def clear (s : Spine) : Spine :=
  ⟨free s.slots s.first s.size, 0, 0⟩

end Spine

end WeakHead
