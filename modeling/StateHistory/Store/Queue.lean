import StateHistory.Store.Stack

/-!
# Queues

An attribute can be used as a queue. The values in the queue are those of its children named `1`,
`2`, … from the head on, up to the first child that is missing or null. Polling moves every value
one place forward.
-/

namespace StateHistory.Store

open Edit

/-- The child at a place of the queue of `q`, if it holds a value. -/
def slot? (s : Store) (q : Quark) (place : Nat) : Option Quark :=
  (s.tree.find? q (slotName place)).filter fun slot => !(s.valueOf slot).isNull

/-- The children from a place of the queue on, up to the first without a value. -/
def slotsFrom (s : Store) (q : Quark) : Nat → Nat → List Quark
  | 0, _ => []
  | fuel + 1, place =>
    match s.slot? q place with
    | some slot => slot :: slotsFrom s q fuel (place + 1)
    | none => []

/-- The children that hold the values of the queue of `q`, in order. Each is an attribute of its
own, so there are fewer than attributes. -/
def slots (s : Store) (q : Quark) : List Quark := s.slotsFrom q s.tree.size 1

/-- Appends `v` to the queue of `q` at `t`. The child for it is added before it is written, and
stays when the write fails. -/
def offer (t : Time) (v : Value) (q : Quark) : Edit Unit := do
  ask (·.checkQuark q)
  let length := ((← get).slots q).length
  let slot ← add q (slotName (length + 1))
  write t v slot

/-- Takes the head off the queue of `q` at `t`; null if the queue is empty. -/
def poll (t : Time) (q : Quark) : Edit Value := do
  ask (·.checkQuark q)
  let s ← get
  let slots := s.slots q
  let values := slots.map s.valueOf
  slots.forM fun slot => ask (·.checkWritable slot t)
  (slots.zip (values.drop 1 ++ [.null])).forM fun (slot, v) => write t v slot
  return values.headD .null

/-- The head of the queue of `q`; null if there is none. -/
def peek (q : Quark) (s : Store) : Except Failure Value := do
  s.checkQuark q
  return (s.tree.find? q (slotName 1)).elim .null s.valueOf

end StateHistory.Store
