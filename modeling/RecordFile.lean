import RecordFile.Bytes
import RecordFile.Bytes.Lemmas
import RecordFile.Catalog
import RecordFile.Config
import RecordFile.Device
import RecordFile.Device.Faulty
import RecordFile.Error
import RecordFile.Image
import RecordFile.Layout
import RecordFile.Layout.Expression
import RecordFile.Number.Binary
import RecordFile.Number.Shortest
import RecordFile.Number.Word
import RecordFile.Path
import RecordFile.Proofs.Action
import RecordFile.Proofs.Catalog.Calls
import RecordFile.Proofs.Catalog.Expressions
import RecordFile.Proofs.Catalog.Regular
import RecordFile.Proofs.Catalog.Runs
import RecordFile.Proofs.Catalog.Sizes
import RecordFile.Proofs.Commuting
import RecordFile.Proofs.Conforming
import RecordFile.Proofs.Device.Flaky
import RecordFile.Proofs.Device.Lawful
import RecordFile.Proofs.Device.Recorder
import RecordFile.Proofs.Device.Session
import RecordFile.Proofs.Drift
import RecordFile.Proofs.Encoded
import RecordFile.Proofs.File.Blank
import RecordFile.Proofs.File.Bytes
import RecordFile.Proofs.File.Chains
import RecordFile.Proofs.File.Extensions
import RecordFile.Proofs.File.Flat
import RecordFile.Proofs.File.Holes
import RecordFile.Proofs.File.Linked
import RecordFile.Proofs.File.Part
import RecordFile.Proofs.File.Places
import RecordFile.Proofs.File.Rewrite
import RecordFile.Proofs.File.Selection
import RecordFile.Proofs.File.Separation
import RecordFile.Proofs.File.Spans
import RecordFile.Proofs.File.Stable
import RecordFile.Proofs.File.Visits
import RecordFile.Proofs.Image
import RecordFile.Proofs.Layout.Catalog
import RecordFile.Proofs.Layout.WellFormed
import RecordFile.Proofs.Leaves
import RecordFile.Proofs.Number.Exact
import RecordFile.Proofs.Path.Spelling
import RecordFile.Proofs.Scalar.Floats
import RecordFile.Proofs.Scalar.Integers
import RecordFile.Proofs.Store.Accounting
import RecordFile.Proofs.Store.Agreement
import RecordFile.Proofs.Store.AnyFile
import RecordFile.Proofs.Store.Commuting
import RecordFile.Proofs.Store.Interruption
import RecordFile.Proofs.Store.Metering
import RecordFile.Proofs.Store.Mirrors
import RecordFile.Proofs.Store.Parts
import RecordFile.Proofs.Store.Permanence
import RecordFile.Proofs.Store.Reached
import RecordFile.Proofs.Store.Refinement
import RecordFile.Proofs.Store.Refusal
import RecordFile.Proofs.Store.Request
import RecordFile.Proofs.Store.Selection
import RecordFile.Proofs.Store.Separation
import RecordFile.Proofs.Store.Spans
import RecordFile.Proofs.Store.Termination
import RecordFile.Proofs.Store.Tracing
import RecordFile.Proofs.Store.WritingBack
import RecordFile.Proofs.Text.Numeral
import RecordFile.Proofs.Tree
import RecordFile.Proofs.Walk.Auditing
import RecordFile.Proofs.Walk.Blank
import RecordFile.Proofs.Walk.Bounds
import RecordFile.Proofs.Walk.Chunks
import RecordFile.Proofs.Walk.Decoding
import RecordFile.Proofs.Walk.Extending
import RecordFile.Proofs.Walk.Flat
import RecordFile.Proofs.Walk.Growth
import RecordFile.Proofs.Walk.Keeps
import RecordFile.Proofs.Walk.Links
import RecordFile.Proofs.Walk.Merging
import RecordFile.Proofs.Walk.Metering
import RecordFile.Proofs.Walk.Progress
import RecordFile.Proofs.Walk.Reading
import RecordFile.Proofs.Walk.Standing
import RecordFile.Proofs.Walk.Tracing
import RecordFile.Proofs.Walk.Truncation
import RecordFile.Proofs.Walk.Writing
import RecordFile.Proofs.Walk.WritingBack
import RecordFile.Scalar
import RecordFile.Scalar.Codec
import RecordFile.Schema
import RecordFile.Store
import RecordFile.Store.Audit
import RecordFile.Store.Chain
import RecordFile.Store.Read
import RecordFile.Store.Session
import RecordFile.Store.Trace
import RecordFile.Store.Write
import RecordFile.Text.Graphic
import RecordFile.Text.Numeral
import RecordFile.Text.Quoted
import RecordFile.Text.Segments
import RecordFile.Toml.Document
import RecordFile.Toml.Node
import RecordFile.Toml.Reader
import RecordFile.Value
