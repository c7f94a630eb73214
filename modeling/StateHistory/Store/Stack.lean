import StateHistory.Store.Edit

/-!
# Stacks

An attribute can be used as a stack. Its own value is the depth, null for an empty stack, and the
values on the stack are those of its children named `1`, `2`, … from the bottom up. Children stay
when their value is popped, and are used again.
-/

namespace StateHistory.Store

open Edit

/-- The name of the child that holds the value at a height, or at a place of a queue. -/
def slotName (height : Int) : List String := [toString height]

/-- The number of values on the stack of `q`. -/
def depth (q : Quark) (s : Store) : Except Failure Int := base 0 "int" Value.asLong q s

/-- The value that records a depth: null for zero. -/
def depthValue (depth : Int) : Value := if depth = 0 then .null else .ofCount depth

/-- Puts `v` on the stack of `q` at `t`. The new depth is counted exactly; what happens to one more
than the last depth of 64 bits, which only a write to `q` itself can give it, is left out. -/
def push (t : Time) (v : Value) (q : Quark) : Edit Unit := do
  let depth ← ask (depth q)
  ask (·.checkWritable q t)
  let child ← add q (slotName (depth + 1))
  ask (·.checkWritable child t)
  write t v child
  write t (.ofCount (depth + 1)) q

/-- The child that holds the value at the top of a stack of the given depth. -/
def topChild (q : Quark) (depth : Int) (s : Store) : Except Failure Quark :=
  match s.tree.find? q (slotName depth) with
  | some child => .ok child
  | none =>
    let path := (s.tree.pathText q).toOption.getD ""
    .error (.attributeNotFound (path ++ "/" ++ toString depth))

/-- Takes the top value off the stack of `q` at `t`. -/
def pop (t : Time) (q : Quark) : Edit Value := do
  let depth ← ask (depth q)
  if depth ≤ 0 then throw (.stackUnderflow q t)
  let child ← ask (topChild q depth)
  ask (·.checkWritable q t)
  ask (·.checkWritable child t)
  let top := (← get).valueOf child
  write t .null child
  write t (depthValue (depth - 1)) q
  return top

end StateHistory.Store
