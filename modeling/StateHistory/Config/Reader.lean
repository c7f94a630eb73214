import StateHistory.Config.Basic
import StateHistory.Toml.Reader

/-!
# Reading a configuration

A configuration is a TOML document. What it does not say keeps its default, and what no setting is
called says nothing.
-/

namespace StateHistory.Config

/-- A setting that has to be a natural number. -/
def natural (default : Nat) : Option Toml → Option Nat
  | none => some default
  | some (.integer n) => if 0 ≤ n then some n.toNat else none
  | some _ => none

/-- A setting that has to be a string. -/
def text : Option Toml → Option (Option String)
  | none => some none
  | some (.string s) => some (some s)
  | some _ => none

/-- A setting that has to be a truth value. -/
def truth (default : Bool) : Option Toml → Option Bool
  | none => some default
  | some (.boolean b) => some b
  | some _ => none

/-- The configuration that a document holds, if it is one. -/
def parse? (document : String) : Option Config := do
  let ms ← Toml.parse? document
  let default : Config := {}
  return {
    progressInterval := ← natural default.progressInterval (Toml.lookup "progress_interval" ms)
    waitTimeoutMs := ← natural default.waitTimeoutMs (Toml.lookup "wait_timeout_ms" ms)
    persistDir := ← text (Toml.lookup "persist_dir" ms)
    flushAtEnd := ← truth default.flushAtEnd (Toml.lookup "flush_future_events_at_end" ms) }

end StateHistory.Config
