import StateHistory.Proofs.Store.Composed

/-!
# Calls in parts

The calls of a writer are composed of a few parts: questions to the store, a look at a timeline,
adding an attribute, moving recording on, the check before a write, the write, amending and closing.
Here the calls are written for parts of any kind (`Parts.edit`). With the edits of a store as parts
they are the calls as they are (`edit_plain`); what holds of them with other parts is a matter of
the parts.
-/

namespace StateHistory.Store

/-- What calls are composed of. -/
structure Parts (m : Type → Type) where
  /-- Asks the store without changing it. -/
  ask : {α : Type} → (Store → Except Failure α) → m α
  /-- The timeline of an attribute that is taken to have one. -/
  timeline : Quark → m Timeline
  /-- The attribute at a path below another, created where it is missing. -/
  add : Quark → List String → m Quark
  /-- Moves recording to a time. -/
  advance : Time → m Unit
  /-- Refuses a write that would come too early or too late. -/
  check : Quark → Time → m Unit
  /-- Starts a new state. -/
  write : Time → Value → Quark → m Unit
  /-- Changes the value of the ongoing state. -/
  amend : Value → Quark → m Unit
  /-- Ends every ongoing state and closes the store. -/
  close : Time → m Unit

namespace Parts

section
variable {m : Type → Type} [Monad m] (p : Parts m)

def fail {α : Type} (e : Failure) : m α := p.ask fun _ => .error e

def value (q : Quark) : m Value := do return (← p.timeline q).value

/-- Adds `delta` to the integer value of `q`, which becomes a long. -/
def addLong (t : Time) (q : Quark) (delta : Int64) : m Unit := do
  let n ← p.ask (base 0 "long" Value.asLong q)
  let sum := n + delta.toInt
  if Value.fitsLong sum then p.write t (.long (.ofInt sum)) q
  else p.fail (.integerOverflow q n delta.toInt)

/-- Adds `delta` to the int value of `q`. -/
def addInt (t : Time) (q : Quark) (delta : Int32) : m Unit := do
  let n ← p.ask (base 0 "int" viewInt q)
  let sum := n + delta.toInt
  if Value.fitsInt sum then p.write t (.int (.ofInt sum)) q
  else p.fail (.integerOverflow q n delta.toInt)

/-- Adds `delta` to the double value of `q`. -/
def addDouble (t : Time) (q : Quark) (delta : UInt64) : m Unit := do
  let n ← p.ask (base 0 "double" Value.asDouble q)
  p.write t (.double (addBits n delta)) q

/-- Those of some attributes whose value is not null. -/
def occupied : List Quark → m (List Quark)
  | [] => return []
  | q :: qs => do
    let v ← p.value q
    let rest ← occupied qs
    return if !v.isNull then q :: rest else rest

/-- Sets `q` and all attributes below it to null. -/
def clear (t : Time) (q : Quark) : m Unit := do
  let below ← p.ask (·.tree.below q true)
  let targets ← p.occupied (q :: below)
  targets.forM fun a => p.check a t
  targets.forM (p.write t .null)
  p.advance t

/-- Puts `v` on the stack of `q` at `t`. -/
def push (t : Time) (v : Value) (q : Quark) : m Unit := do
  let depth ← p.ask (depth q)
  p.check q t
  let child ← p.add q (slotName (depth + 1))
  p.check child t
  p.write t v child
  p.write t (.ofCount (depth + 1)) q

/-- Takes the top value off the stack of `q` at `t`. -/
def pop (t : Time) (q : Quark) : m Value := do
  let depth ← p.ask (depth q)
  if depth ≤ 0 then p.fail (.stackUnderflow q t)
  let child ← p.ask (topChild q depth)
  p.check q t
  p.check child t
  let top ← p.value child
  p.write t .null child
  p.write t (depthValue (depth - 1)) q
  return top

/-- The children from a place of the queue of `q` on, up to the first without a value. -/
def slotsFrom (q : Quark) : Nat → Nat → m (List Quark)
  | 0, _ => return []
  | fuel + 1, place => do
    match ← p.ask fun s => .ok (s.tree.find? q (slotName place)) with
    | none => return []
    | some slot =>
      if (← p.value slot).isNull then return []
      else return slot :: (← slotsFrom q fuel (place + 1))

/-- The children that hold the values of the queue of `q`, in order. -/
def slots (q : Quark) : m (List Quark) := do
  p.slotsFrom q (← p.ask fun s => .ok s.tree.size) 1

/-- Appends `v` to the queue of `q` at `t`. -/
def offer (t : Time) (v : Value) (q : Quark) : m Unit := do
  p.ask (·.checkQuark q)
  let slots ← p.slots q
  let slot ← p.add q (slotName (slots.length + 1))
  p.write t v slot

/-- Takes the head off the queue of `q` at `t`; null if the queue is empty. -/
def poll (t : Time) (q : Quark) : m Value := do
  p.ask (·.checkQuark q)
  let slots ← p.slots q
  slots.forM fun slot => p.check slot t
  let values ← slots.mapM p.value
  (slots.zip (values.drop 1 ++ [.null])).forM fun (slot, v) => p.write t v slot
  return values.headD .null

/-- What a writer asks for. -/
def edit : Call → m Unit
  | .step (.add base path) => do let _ ← p.add base path
  | .step (.advance t) => p.advance t
  | .step (.write t v q) => p.write t v q
  | .step (.amend v q) => p.amend v q
  | .step (.close t) => p.close t
  | .push t v q => p.push t v q
  | .pop t q => do let _ ← p.pop t q
  | .addLong t q delta => p.addLong t q delta
  | .addInt t q delta => p.addInt t q delta
  | .addDouble t q delta => p.addDouble t q delta
  | .clear t q => p.clear t q
  | .offer t v q => p.offer t v q
  | .poll t q => do let _ ← p.poll t q

end

/-! ## The edits of a store -/

/-- The edits of a store as parts. -/
def plain : Parts Edit where
  ask := Edit.ask
  timeline q := Edit.ask fun s => .ok (s.timelineOf q)
  add := Store.add
  advance := Store.advance
  check q t := Edit.ask (·.checkWritable q t)
  write := Store.write
  amend := Store.amend
  close := Store.close

section
variable {α β : Type} (s : Store) (q : Quark) (t : Time)

theorem plain_value : plain.value q s = .ok (s.valueOf q) s := rfl

theorem plain_occupied : ∀ qs : List Quark,
    plain.occupied qs s = .ok (qs.filter fun a => !(s.valueOf a).isNull) s
  | [] => rfl
  | q :: qs => by
    refine Edit.bind_ok.2 ⟨_, _, plain_value s q, Edit.bind_ok.2 ⟨_, _, plain_occupied qs, ?_⟩⟩
    rw [List.filter_cons]
    rfl

theorem plain_slotsFrom : ∀ fuel place : Nat,
    plain.slotsFrom q fuel place s = .ok (s.slotsFrom q fuel place) s
  | 0, _ => rfl
  | fuel + 1, place => by
    rw [Store.slotsFrom, slot?]
    refine Edit.bind_ok.2 ⟨_, _, rfl, ?_⟩
    cases s.tree.find? q (slotName place) with
    | none => rfl
    | some slot =>
      refine Edit.bind_ok.2 ⟨_, _, plain_value s slot, ?_⟩
      rw [Option.filter_some]
      cases (s.valueOf slot).isNull with
      | true => rfl
      | false => exact Edit.bind_ok.2 ⟨_, _, plain_slotsFrom fuel (place + 1), rfl⟩

theorem plain_slots : plain.slots q s = .ok (s.slots q) s :=
  Edit.bind_ok.2 ⟨_, _, rfl, plain_slotsFrom s q s.tree.size 1⟩

theorem plain_values : ∀ qs : List Quark, qs.mapM plain.value s = .ok (qs.map s.valueOf) s
  | [] => rfl
  | q :: qs => by
    rw [List.mapM_cons]
    exact Edit.bind_ok.2 ⟨_, _, plain_value s q, Edit.bind_ok.2 ⟨_, _, plain_values qs, rfl⟩⟩

/-- What is read first can be read off the store. -/
theorem bind_read {x : Edit α} {f : Store → α} (h : ∀ s, x s = .ok (f s) s) (k : α → Edit β) :
    x >>= k = get >>= fun s => k (f s) := by
  funext s
  change EStateM.bind x k s = EStateM.bind get _ s
  unfold EStateM.bind
  rw [h s]
  rfl

theorem clear_plain : plain.clear t q = Store.clear t q :=
  bind_congr fun below => bind_read (fun s => plain_occupied s (q :: below)) _

theorem pop_plain : plain.pop t q = Store.pop t q := by
  refine bind_congr fun depth => ?_
  have htaken : (do
      let child ← plain.ask (topChild q depth)
      plain.check q t
      plain.check child t
      let top ← plain.value child
      plain.write t .null child
      plain.write t (depthValue (depth - 1)) q
      return top) = (do
      let child ← Edit.ask (topChild q depth)
      Edit.ask (·.checkWritable q t)
      Edit.ask (·.checkWritable child t)
      let top := (← get).valueOf child
      Store.write t .null child
      Store.write t (depthValue (depth - 1)) q
      return top) :=
    bind_congr fun child => bind_congr fun _ => bind_congr fun _ =>
      bind_read (fun s => plain_value s child) _
  split
  · rfl
  · exact htaken

theorem offer_plain (v : Value) : plain.offer t v q = Store.offer t v q :=
  bind_congr fun _ => bind_read (fun s => plain_slots s q) _

/-- The checks before a poll leave the values as they were. -/
theorem poll_plain : plain.poll t q = Store.poll t q := by
  refine bind_congr fun _ => (bind_read (fun s => plain_slots s q) _).trans ?_
  funext s
  change ((s.slots q).forM (fun slot => Edit.ask (·.checkWritable slot t)) >>= _) s =
    ((s.slots q).forM (fun slot => Edit.ask (·.checkWritable slot t)) >>= _) s
  change EStateM.bind _ _ s = EStateM.bind _ _ s
  unfold EStateM.bind
  cases hchecks : (s.slots q).forM (fun slot => Edit.ask (·.checkWritable slot t)) s with
  | error e s' => rfl
  | ok u s' =>
    obtain ⟨rfl, -⟩ := forM_ask_ok_iff.1 hchecks
    exact congrFun (bind_read (fun s => plain_values s _) _) s'

end

theorem edit_plain (c : Call) : plain.edit c = c.edit := by
  cases c with
  | step a => cases a <;> rfl
  | clear t q => exact clear_plain q t
  | pop t q => exact congrArg (· >>= fun _ => pure ()) (pop_plain q t)
  | offer t v q => exact offer_plain q t v
  | poll t q => exact congrArg (· >>= fun _ => pure ()) (poll_plain q t)
  | _ => rfl

end Parts

end StateHistory.Store
