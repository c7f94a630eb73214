import StateHistory.Main
import StateHistory.Proofs.Analysis.Cached
import StateHistory.Proofs.Analysis.Complete
import StateHistory.Proofs.Analysis.LastValues
import StateHistory.Proofs.Analysis.Orders
import StateHistory.Proofs.Analysis.Readiness
import StateHistory.Proofs.Analysis.Told
import StateHistory.Proofs.Analysis.Underway
import StateHistory.Proofs.Archive.Reloaded
import StateHistory.Proofs.Archive.Replaced
import StateHistory.Proofs.Archive.SaveLoad
import StateHistory.Proofs.Attribute.Patterns
import StateHistory.Proofs.Attribute.Preorder
import StateHistory.Proofs.Attribute.Rebuilt
import StateHistory.Proofs.CallStack.Early
import StateHistory.Proofs.CallStack.Run
import StateHistory.Proofs.CommandLine.Printed
import StateHistory.Proofs.Counter.Run
import StateHistory.Proofs.Guarded.Origin
import StateHistory.Proofs.Guarded.Times
import StateHistory.Proofs.StateSystem.Flush
import StateHistory.Proofs.StateSystem.Keeps
import StateHistory.Proofs.StateSystem.Lifetime
import StateHistory.Proofs.Store.Cleared
import StateHistory.Proofs.Store.ClosedQuery
import StateHistory.Proofs.Store.Dated
import StateHistory.Proofs.Store.Extent
import StateHistory.Proofs.Store.Frozen
import StateHistory.Proofs.Store.GrowingQuery
import StateHistory.Proofs.Store.Growth
import StateHistory.Proofs.Store.Independence
import StateHistory.Proofs.Store.Inside
import StateHistory.Proofs.Store.Origin
import StateHistory.Proofs.Store.QueueRun
import StateHistory.Proofs.Store.RangeQuery
import StateHistory.Proofs.Store.Refused
import StateHistory.Proofs.Store.Restored
import StateHistory.Proofs.Store.Scan
import StateHistory.Proofs.Store.StackRun
import StateHistory.Proofs.Store.TimeTravel
import StateHistory.Proofs.Store.Visible
import StateHistory.Proofs.Store.Wrapping
import StateHistory.Proofs.Timeline.Reopened
import StateHistory.Proofs.Trace.Lossless
import StateHistory.Proofs.Trace.Numbers
