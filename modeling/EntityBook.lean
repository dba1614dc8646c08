import EntityBook.Backend
import EntityBook.Book.Basic
import EntityBook.Book.Params
import EntityBook.Book.Undo
import EntityBook.Calendar.Date
import EntityBook.Calendar.Relaxed
import EntityBook.Calendar.Rfc3339
import EntityBook.Calendar.Timestamp
import EntityBook.Class.Accessor
import EntityBook.Class.Basic
import EntityBook.Class.Registry
import EntityBook.Config
import EntityBook.Copy.Basic
import EntityBook.Copy.Report
import EntityBook.Copy.Resolve
import EntityBook.Double.Basic
import EntityBook.Double.Round
import EntityBook.Double.Shortest
import EntityBook.Double.Text
import EntityBook.Error
import EntityBook.Event
import EntityBook.Instance.Access
import EntityBook.Instance.Basic
import EntityBook.Json.Basic
import EntityBook.Json.Decode
import EntityBook.Json.Numeral
import EntityBook.Json.Reader
import EntityBook.Json.Writer
import EntityBook.OrderedMap
import EntityBook.Payload.Bag
import EntityBook.Payload.Basic
import EntityBook.Proofs.Book.Edit
import EntityBook.Proofs.Book.Revision
import EntityBook.Proofs.Book.WellFormed
import EntityBook.Proofs.Calendar.Date
import EntityBook.Proofs.Calendar.Rfc3339
import EntityBook.Proofs.Class.Registry
import EntityBook.Proofs.Class.Table
import EntityBook.Proofs.Copy.Account
import EntityBook.Proofs.Copy.Closure
import EntityBook.Proofs.Copy.Exchange
import EntityBook.Proofs.Copy.Fidelity
import EntityBook.Proofs.Copy.Members
import EntityBook.Proofs.Copy.One
import EntityBook.Proofs.Copy.Order
import EntityBook.Proofs.Copy.Orphan
import EntityBook.Proofs.Copy.Partition
import EntityBook.Proofs.Copy.References
import EntityBook.Proofs.Copy.Repeat
import EntityBook.Proofs.Copy.Replica
import EntityBook.Proofs.Copy.Resolution
import EntityBook.Proofs.Copy.Targets
import EntityBook.Proofs.Copy.Transfer
import EntityBook.Proofs.Double.RoundTrip
import EntityBook.Proofs.Double.Rounding
import EntityBook.Proofs.Double.Shortest
import EntityBook.Proofs.Event.Atomic
import EntityBook.Proofs.Event.Conservation
import EntityBook.Proofs.Event.Mirror
import EntityBook.Proofs.Event.Unmarked
import EntityBook.Proofs.Instance.Access
import EntityBook.Proofs.Instance.AllOrNothing
import EntityBook.Proofs.Instance.InPlace
import EntityBook.Proofs.Instance.Same
import EntityBook.Proofs.Instance.Storage
import EntityBook.Proofs.Json.Numeral
import EntityBook.Proofs.Json.RoundTrip
import EntityBook.Proofs.Payload.Bag
import EntityBook.Proofs.Run.Call
import EntityBook.Proofs.Run.History
import EntityBook.Proofs.Run.Hook
import EntityBook.Proofs.Run.Invariant
import EntityBook.Proofs.Run.Representation
import EntityBook.Proofs.Run.Step
import EntityBook.Proofs.Run.Verdict
import EntityBook.Proofs.Run.WriteResult
import EntityBook.Proofs.SideTable.Canonical
import EntityBook.Proofs.SideTable.Deletion
import EntityBook.Proofs.SideTable.Leaves
import EntityBook.Proofs.SideTable.Lookup
import EntityBook.Proofs.SideTable.Lossless
import EntityBook.Proofs.SideTable.Patch
import EntityBook.Proofs.SideTable.Path
import EntityBook.Proofs.SideTable.Readable
import EntityBook.Proofs.SideTable.Rebuild
import EntityBook.Proofs.SideTable.Tidy
import EntityBook.Proofs.SideTable.Update
import EntityBook.Proofs.SortedEntries
import EntityBook.Proofs.Undo.Aside
import EntityBook.Proofs.Undo.Beside
import EntityBook.Proofs.Undo.Captures
import EntityBook.Proofs.Undo.Cell
import EntityBook.Proofs.Undo.Existence
import EntityBook.Proofs.Undo.Instants
import EntityBook.Proofs.Undo.Ledger
import EntityBook.Proofs.Undo.Log
import EntityBook.Proofs.Undo.Loss
import EntityBook.Proofs.Undo.Operation
import EntityBook.Proofs.Undo.Recording
import EntityBook.Proofs.Undo.Refusal
import EntityBook.Proofs.Undo.Replay
import EntityBook.Proofs.Undo.Restore
import EntityBook.Proofs.Undo.Revival
import EntityBook.Proofs.Undo.SafeOrder
import EntityBook.Proofs.Undo.SlotDeletion
import EntityBook.Proofs.Undo.SlotDiff
import EntityBook.Proofs.Undo.SlotHistory
import EntityBook.Proofs.Undo.SlotOrder
import EntityBook.Proofs.Undo.SlotPatch
import EntityBook.Proofs.Undo.SlotRecord
import EntityBook.Proofs.Undo.SlotReplay
import EntityBook.Proofs.Undo.SlotRun
import EntityBook.Proofs.Undo.SlotSession
import EntityBook.Proofs.Undo.Snapshot
import EntityBook.Proofs.Undo.SpoiledOrder
import EntityBook.Proofs.Undo.SpoiledPatch
import EntityBook.Proofs.Undo.Steps
import EntityBook.Proofs.Undo.Timeline
import EntityBook.Proofs.Undo.Transparent
import EntityBook.Proofs.Undo.ValueHistory
import EntityBook.Proofs.Undo.ValueRecord
import EntityBook.Proofs.Undo.ValueReplay
import EntityBook.Proofs.Undo.ValueRun
import EntityBook.Proofs.Undo.ValueStep
import EntityBook.Proofs.Undo.Zipper
import EntityBook.Proofs.Value.LowestTerms
import EntityBook.Proofs.Value.RoundTrip
import EntityBook.Proofs.Value.Text
import EntityBook.SideTable.Frame
import EntityBook.SideTable.Json
import EntityBook.Text.Blank
import EntityBook.Text.Diagnostic
import EntityBook.Text.Hex
import EntityBook.Text.Integer
import EntityBook.Text.Quoted
import EntityBook.Text.Unprintable
import EntityBook.Toml.Document
import EntityBook.Toml.Label
import EntityBook.Toml.Text
import EntityBook.Toml.Value
import EntityBook.Undo.Log
import EntityBook.Value.Entity
import EntityBook.Value.Error
import EntityBook.Value.Guid
import EntityBook.Value.Kind
import EntityBook.Value.Numeric
import EntityBook.Value.Param
