import VersionAlignment.Artifact.Basic
import VersionAlignment.Artifact.Catalog.Document
import VersionAlignment.Artifact.Catalog.Options
import VersionAlignment.Artifact.Catalog.Span
import VersionAlignment.Artifact.Catalog.Update
import VersionAlignment.Artifact.Format
import VersionAlignment.Artifact.GoTest
import VersionAlignment.Artifact.Terraform.Conditions
import VersionAlignment.Artifact.Terraform.Update
import VersionAlignment.CommandLine.Arguments
import VersionAlignment.CommandLine.LogFile
import VersionAlignment.CommandLine.Rehearsal
import VersionAlignment.CommandLine.Run
import VersionAlignment.CommandLine.Usage
import VersionAlignment.Decimal.Binary64
import VersionAlignment.Decimal.Shortest
import VersionAlignment.Json.Cursor
import VersionAlignment.Json.Decode
import VersionAlignment.Json.Fault
import VersionAlignment.Json.Number
import VersionAlignment.Json.Printer
import VersionAlignment.Json.Reader
import VersionAlignment.Json.Text
import VersionAlignment.Json.Value
import VersionAlignment.Main
import VersionAlignment.Proofs.Catalog.Declaration
import VersionAlignment.Proofs.GoTest.Grammar
import VersionAlignment.Proofs.GoTest.Replacement
import VersionAlignment.Proofs.Reconcile.Agreement
import VersionAlignment.Proofs.Reconcile.Convergence
import VersionAlignment.Proofs.Reconcile.NoChange
import VersionAlignment.Proofs.Reconcile.Stages
import VersionAlignment.Proofs.Terraform.Grammar
import VersionAlignment.Proofs.Terraform.Message
import VersionAlignment.Proofs.Terraform.Rewriting
import VersionAlignment.Proofs.Terraform.RoundTrip
import VersionAlignment.Proofs.Text.Barrier
import VersionAlignment.Proofs.Text.Dissection
import VersionAlignment.Proofs.Text.Names
import VersionAlignment.Proofs.Text.Recognition
import VersionAlignment.Proofs.Version.Stability
import VersionAlignment.Reconcile
import VersionAlignment.Report
import VersionAlignment.Settings
import VersionAlignment.Source.ApiKey
import VersionAlignment.Source.Deployables
import VersionAlignment.Source.Error
import VersionAlignment.Source.Form
import VersionAlignment.Source.Lease
import VersionAlignment.Source.Script
import VersionAlignment.Source.Session
import VersionAlignment.Store.Basic
import VersionAlignment.Store.Disk
import VersionAlignment.Store.Error
import VersionAlignment.Store.Memory
import VersionAlignment.Store.Path
import VersionAlignment.Text.Blank
import VersionAlignment.Text.Code
import VersionAlignment.Text.Digits
import VersionAlignment.Text.Escape
import VersionAlignment.Text.Extending
import VersionAlignment.Text.Graphic
import VersionAlignment.Text.Lines
import VersionAlignment.Text.Ranges
import VersionAlignment.Text.Segment
import VersionAlignment.Text.Shape
import VersionAlignment.Version.Order
import VersionAlignment.Version.Request
import VersionAlignment.Version.Set
import VersionAlignment.Web.Address
import VersionAlignment.Web.Fault
import VersionAlignment.Web.Host
import VersionAlignment.Web.Percent
import VersionAlignment.Web.Punycode
import VersionAlignment.Proofs.Json.Locality
import VersionAlignment.Proofs.Reconcile.Placement
import VersionAlignment.Proofs.Reconcile.Writes
import VersionAlignment.Proofs.Json.Reading
import VersionAlignment.Proofs.Json.Moves
import VersionAlignment.Proofs.Json.Edits
import VersionAlignment.Proofs.Json.Writing
import VersionAlignment.Proofs.Catalog.Rendering
import VersionAlignment.Proofs.Catalog.Members
import VersionAlignment.Proofs.Catalog.Chunks
import VersionAlignment.Proofs.Catalog.Editing
import VersionAlignment.Proofs.Catalog.LineRuns
import VersionAlignment.Proofs.Catalog.Preservation
import VersionAlignment.Proofs.Json.Lookup
import VersionAlignment.Proofs.Catalog.Flavors
import VersionAlignment.Proofs.Reconcile.Independence
import VersionAlignment.Proofs.Catalog.Readback
import VersionAlignment.Proofs.Persistence
import VersionAlignment.Proofs.Terraform.Preservation
import VersionAlignment.Proofs.Reconcile.Accounts
import VersionAlignment.Proofs.Reconcile.DryRun
import VersionAlignment.Proofs.Text.LineBreaks
import VersionAlignment.Proofs.Catalog.LineCode
import VersionAlignment.Proofs.Catalog.LineEnds
import VersionAlignment.Proofs.LineEndings
import VersionAlignment.Proofs.Catalog.Rerendering
import VersionAlignment.Proofs.Catalog.Spans
import VersionAlignment.Proofs.Catalog.Scope
import VersionAlignment.Proofs.Catalog.Retracing
import VersionAlignment.Proofs.Catalog.Idempotence
import VersionAlignment.Proofs.SameVersions
import VersionAlignment.Proofs.Source.Recording
import VersionAlignment.Proofs.Source.Leases
import VersionAlignment.Proofs.Terraform.MessageScope
import VersionAlignment.Proofs.GoTest.Readback
import VersionAlignment.Proofs.Text.Pieces
import VersionAlignment.Proofs.GoTest.Completeness
import VersionAlignment.Proofs.Json.Openings
import VersionAlignment.Proofs.Catalog.UpToDate
import VersionAlignment.Proofs.Catalog.Surroundings
import VersionAlignment.Proofs.Catalog.ExactEdit
import VersionAlignment.Proofs.Source.Lifetimes
import VersionAlignment.Proofs.Source.Selection
import VersionAlignment.Proofs.Version.Matching
import VersionAlignment.Proofs.Decimal.Rounding
import VersionAlignment.Proofs.Decimal.Shortest
import VersionAlignment.Proofs.Json.Numerals
import VersionAlignment.Proofs.Json.Scalars
import VersionAlignment.Proofs.Catalog.NumericDefault
import VersionAlignment.Proofs.Version.Components
import VersionAlignment.Proofs.Version.NormalForm
import VersionAlignment.Proofs.Version.Difference
import VersionAlignment.Proofs.Json.Grammar
import VersionAlignment.Proofs.Json.Nesting
import VersionAlignment.Proofs.Json.Standing
import VersionAlignment.Proofs.Catalog.Structure
import VersionAlignment.Proofs.Catalog.StableRendering
