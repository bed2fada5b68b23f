import Marshal.Async.Executor
import Marshal.Async.Registry
import Marshal.Binding
import Marshal.Browser
import Marshal.Cbor
import Marshal.Cbor.Decode
import Marshal.Command
import Marshal.Config
import Marshal.Console.Basic
import Marshal.Console.Managed
import Marshal.Console.Memory
import Marshal.Console.Objects
import Marshal.Console.Request
import Marshal.Console.Run
import Marshal.Datum
import Marshal.Decl
import Marshal.Digest
import Marshal.Failure
import Marshal.Files
import Marshal.Handle
import Marshal.Heap
import Marshal.Key
import Marshal.Layout
import Marshal.Main
import Marshal.Managed.Calls
import Marshal.Managed.Identity
import Marshal.Managed.Session
import Marshal.Managed.Strings
import Marshal.Managed.Vectors
import Marshal.Manifest
import Marshal.Memory
import Marshal.Object.Store
import Marshal.Object.Table
import Marshal.Outcome
import Marshal.Owner.Basic
import Marshal.Owner.Call
import Marshal.Owner.Object
import Marshal.Plan.Basic
import Marshal.Plan.Render
import Marshal.Plan.Snapshot
import Marshal.Proofs.Align
import Marshal.Scalar
import Marshal.Selection
import Marshal.Signature
import Marshal.Slots
import Marshal.Step
import Marshal.Symbol
import Marshal.Text
import Marshal.Text.Blank
import Marshal.Text.Hole
import Marshal.Text.Lower
import Marshal.Text.Printable
import Marshal.Text.Quoted
import Marshal.Text.Template
import Marshal.Text.Utf8
import Marshal.Toml.Basic
import Marshal.Toml.Decode
import Marshal.Toml.Document
import Marshal.Toml.Number
import Marshal.Toml.Reader
import Marshal.TypeExpr
import Marshal.Word
import Marshal.Proofs.Heap.Valid
import Marshal.Proofs.Heap.Allocate
import Marshal.Proofs.Heap.Steps
import Marshal.Proofs.Heap.Ledger
import Marshal.Proofs.Slots.Lowers
import Marshal.Proofs.Slots.Width
import Marshal.Proofs.Slots.Lifts
import Marshal.Proofs.Slots.RoundTrip
import Marshal.Proofs.Slots.Stable
import Marshal.Proofs.Outcome
import Marshal.Proofs.Memory.Aggregate
import Marshal.Proofs.Heap.Replaced
import Marshal.Proofs.Heap.Shared
import Marshal.Proofs.Object.Buffer
import Marshal.Proofs.Object.Accounts
import Marshal.Proofs.Object.Store
import Marshal.Proofs.Object.Table
import Marshal.Proofs.Object.Drop
import Marshal.Proofs.Object.Cells
import Marshal.Proofs.Object.Sequence
import Marshal.Proofs.Owner.Declared
import Marshal.Proofs.Owner.Access
import Marshal.Proofs.Owner.Vectors
import Marshal.Proofs.Owner.Calls
import Marshal.Proofs.Owner.Lodging
import Marshal.Proofs.Owner.Shelf
import Marshal.Proofs.Owner.ShelfCalls
import Marshal.Proofs.Managed.Tokens
import Marshal.Proofs.Managed.Bound
import Marshal.Proofs.Managed.Operations
import Marshal.Proofs.Managed.Play
import Marshal.Proofs.Managed.SingleOwner
import Marshal.Proofs.Managed.Lists
import Marshal.Proofs.Async.Executor
import Marshal.Proofs.Async.Service
import Marshal.Proofs.Async.Exchange
import Marshal.Proofs.Object.Lookup
import Marshal.Proofs.Object.Loss
import Marshal.Proofs.Object.Closing
import Marshal.Proofs.Object.Estate
import Marshal.Proofs.Object.Solvent
import Marshal.Proofs.Owner.Borrow
import Marshal.Proofs.Owner.Nesting
import Marshal.Proofs.Owner.Solvent
import Marshal.Proofs.Owner.Dropping
import Marshal.Proofs.Heap.Numbered
import Marshal.Proofs.Object.Watched
import Marshal.Proofs.Object.Replay
import Marshal.Proofs.Managed.Closing
import Marshal.Proofs.Object.Shutdown
import Marshal.Proofs.Plan.Symbols
import Marshal.Proofs.Owner.TypeChecks
import Marshal.Proofs.Managed.Clearing
import Marshal.Proofs.Identity.Key
import Marshal.Proofs.Identity.Adapter
import Marshal.Proofs.Plan.Binding
import Marshal.Proofs.Plan.Names
import Marshal.Proofs.Text.Sorted
import Marshal.Proofs.Text.Utf8
import Marshal.Proofs.Layout.Outline
import Marshal.Proofs.Layout.Exact
import Marshal.Proofs.Plan.Order
import Marshal.Proofs.TypeExpr.Grammar
import Marshal.Proofs.TypeExpr.Reads
import Marshal.Proofs.Cbor.Canonical
import Marshal.Proofs.Cbor.Records
import Marshal.Proofs.Snapshot.Storable
import Marshal.Proofs.Snapshot.Extent
import Marshal.Proofs.Snapshot.Built
import Marshal.Proofs.Owner.Walk
import Marshal.Proofs.Owner.Upkeep
import Marshal.Proofs.Heap.Low
import Marshal.Proofs.Heap.Cutting
import Marshal.Proofs.Text.Trim
import Marshal.Proofs.Owner.Strings
import Marshal.Proofs.Owner.Intact
import Marshal.Proofs.Managed.Strings
import Marshal.Proofs.Plan.Scope
import Marshal.Proofs.Plan.Supported
import Marshal.Proofs.Async.Refused
import Marshal.Proofs.Signature.Commas
import Marshal.Proofs.Signature.RoundTrip
import Marshal.Proofs.Heap.Classes
import Marshal.Proofs.Owner.Storage
import Marshal.Proofs.Managed.FailedPush
import Marshal.Proofs.Async.Search
import Marshal.Proofs.Browser
import Marshal.Proofs.Handle.Contest
import Marshal.Proofs.Managed.OneShot
