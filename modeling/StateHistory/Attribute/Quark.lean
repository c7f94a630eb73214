/-!
# Quarks

A quark is the handle of one attribute: its place in the order in which the attributes of a state
system were created. The root comes first.
-/

namespace StateHistory

/-- The handle of one attribute. -/
structure Quark where
  index : Nat
deriving DecidableEq, Repr, Inhabited

namespace Quark

/-- The root of every attribute tree. -/
def root : Quark := ⟨0⟩

def text (q : Quark) : String := "#" ++ toString q.index

end Quark

end StateHistory
