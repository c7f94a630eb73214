import StateHistory.Store.Basic

/-!
# Edits of a store

Adding attributes, moving time forward, writing single attributes, clearing a subtree, and closing
the store. Each of these either happens as a whole or leaves the store as it was.
-/

namespace StateHistory.Store

open Edit

/-- The attribute at `path` below `base`, created where it is missing. -/
def add (base : Quark) (path : List String) : Edit Quark := do
  let (q, tree) ← ask (·.tree.ensure base path)
  modify fun s => { s with tree }.cover
  return q

/-- Moves recording to `t`. -/
def advance (t : Time) : Edit Unit := do
  ask (·.checkTime none t)
  modify (·.reach t)

/-- Starts a new state of `q` at `t`. -/
def write (t : Time) (v : Value) (q : Quark) : Edit Unit := do
  ask (·.checkWritable q t)
  let l ← ask fun s => (s.timelineOf q).write q t v
  modify (·.setTimeline q l)
  advance t

/-- Changes the value of the ongoing state of `q`. This is allowed in a closed store too, where it
starts a new state. -/
def amend (v : Value) (q : Quark) : Edit Unit := do
  ask (·.checkQuark q)
  modify fun s =>
    s.setTimeline q ((s.timelineOf q).amend v ((s.stop.or s.start).getD 0))

/-- Amends in 64 bits: a state that would start after the latest time starts at the earliest. -/
def amendWrapping (v : Value) (q : Quark) : Edit Unit := do
  amend v q
  modify fun s => s.setTimeline q (s.timelineOf q).wrapped

/-- The ongoing value of `q` as a number of the kind that `view` recognises; null counts as
`zero`. -/
def base (zero : α) (expected : String) (view : Value → Option α) (q : Quark) (s : Store) :
    Except Failure α := do
  match (← s.timeline q).value with
  | .null => return zero
  | v =>
    match view v with
    | some a => return a
    | none => throw (.typeMismatch q expected v.kind)

/-- Adds `delta` to the integer value of `q`, which becomes a long. -/
def addLong (t : Time) (q : Quark) (delta : Int64) : Edit Unit := do
  let n ← ask (base 0 "long" Value.asLong q)
  let sum := n + delta.toInt
  if Value.fitsLong sum then write t (.long (.ofInt sum)) q
  else throw (.integerOverflow q n delta.toInt)

def viewInt : Value → Option Int
  | .int v => some v.toInt
  | _ => none

/-- Adds `delta` to the int value of `q`. -/
def addInt (t : Time) (q : Quark) (delta : Int32) : Edit Unit := do
  let n ← ask (base 0 "int" viewInt q)
  let sum := n + delta.toInt
  if Value.fitsInt sum then write t (.int (.ofInt sum)) q
  else throw (.integerOverflow q n delta.toInt)

/-- The sum of two doubles given by their bits. A sum with what is no number keeps the bits of that
operand, the first of two, and a sum that is no number by itself has the sign bit set. -/
def addBits (a b : UInt64) : UInt64 :=
  let quiet (bits : UInt64) := bits ||| 0x0008000000000000
  if Decimal.decode a = .nan then quiet a
  else if Decimal.decode b = .nan then quiet b
  else
    let sum := (Float.ofBits a + Float.ofBits b).toBits
    if Decimal.decode sum = .nan then 0xfff8000000000000 else sum

/-- Adds `delta` to the double value of `q`. -/
def addDouble (t : Time) (q : Quark) (delta : UInt64) : Edit Unit := do
  let n ← ask (base 0 "double" Value.asDouble q)
  write t (.double (addBits n delta)) q

/-- Sets `q` and all attributes below it to null. Attributes that are null already stay as they
are. -/
def clear (t : Time) (q : Quark) : Edit Unit := do
  let below ← ask (·.tree.below q true)
  let s ← get
  let targets := (q :: below).filter fun a => !(s.valueOf a).isNull
  targets.forM fun a => ask (·.checkWritable a t)
  targets.forM (write t .null)
  advance t

/-- The timelines with every ongoing state ended at `t`, and the last time any of them held. -/
def closeAll (t : Time) (ls : List Timeline) (i : Nat) (stop : Time) : List Timeline × Time :=
  match ls with
  | [] => ([], stop)
  | l :: rest =>
    let (ended, l) := l.close ⟨i⟩ t
    let (rest, stop) := closeAll t rest (i + 1) (ended.elim stop (max stop))
    (l :: rest, stop)

/-- Ends every ongoing state just before `t` and closes the store. -/
def close (t : Time) : Edit Unit := do
  let s ← get
  match s.stop.filter fun stop => t < stop with
  | some stop => throw (.orderingViolation none t stop)
  | none =>
    let (ls, stop) := closeAll t s.timelines.toList 0 (s.stop.elim t (max t.before))
    set { s with
      timelines := ls.toArray
      start := some (min (s.start.getD stop) stop)
      stop := some stop
      closed := true }

end StateHistory.Store
