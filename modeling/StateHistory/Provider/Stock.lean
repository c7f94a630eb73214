import StateHistory.Provider.CallStack
import StateHistory.Provider.Counter

/-!
# Stock providers

The providers that can be chosen by name.
-/

namespace StateHistory

/-- A provider of the library. -/
inductive Stock where
  | callStack
  | counter
deriving DecidableEq, Repr

namespace Stock

/-- The name of a provider, which is also the name of the analysis it is used in. -/
def name : Stock → String
  | callStack => "callstack"
  | counter => "counter"

def ofName? : String → Option Stock
  | "callstack" => some callStack
  | "counter" => some counter
  | _ => none

def provider : Stock → Provider
  | callStack => CallStack.provider
  | counter => Counter.provider

end Stock

end StateHistory
