import GraphVault.Bytes
import GraphVault.Bytes.Hex
import GraphVault.Bytes.LittleEndian
import GraphVault.Catalog
import GraphVault.Catalog.Entry
import GraphVault.Catalog.File
import GraphVault.Command
import GraphVault.Command.Execution
import GraphVault.Command.Report
import GraphVault.CommandLine
import GraphVault.CommandLine.Argument
import GraphVault.CommandLine.Usage
import GraphVault.Dag
import GraphVault.Digest.Blake3
import GraphVault.Disk
import GraphVault.Disk.Changes
import GraphVault.Disk.Fault
import GraphVault.Disk.Path
import GraphVault.Double
import GraphVault.Double.Notation
import GraphVault.Double.Rounding
import GraphVault.Double.Shortest
import GraphVault.Entity
import GraphVault.Entity.Attribute
import GraphVault.Entity.Check
import GraphVault.Entity.EdgeBundle
import GraphVault.Entity.VertexSet
import GraphVault.EntityDirectory
import GraphVault.Executor
import GraphVault.Failure
import GraphVault.Format.Header
import GraphVault.Format.Manifest
import GraphVault.Format.Ordered
import GraphVault.Format.RowFile
import GraphVault.Format.Unordered
import GraphVault.Guid
import GraphVault.Guid.Codec
import GraphVault.Json
import GraphVault.Json.Documents
import GraphVault.Json.Reader
import GraphVault.Json.Shape
import GraphVault.Json.Text
import GraphVault.Kind
import GraphVault.Main
import GraphVault.Operation.Builtin
import GraphVault.Operation.Context
import GraphVault.Operation.Instance
import GraphVault.Operation.Registry
import GraphVault.Plan
import GraphVault.Plan.File
import GraphVault.Preview
import GraphVault.Proofs.Addresses
import GraphVault.Proofs.Content
import GraphVault.Proofs.Fitting
import GraphVault.Proofs.OrderedRoundTrip
import GraphVault.Proofs.PositionalIntegrity
import GraphVault.Proofs.StoredForms
import GraphVault.Proofs.Yields
import GraphVault.Session
import GraphVault.Settings
import GraphVault.Settings.Document
import GraphVault.Settings.File
import GraphVault.SortedMap
import GraphVault.Text.Quoted
import GraphVault.Text.Unprintable
import GraphVault.Toml
import GraphVault.Toml.Date
import GraphVault.Toml.Number
import GraphVault.Toml.Reader
import GraphVault.Vault
import GraphVault.Wire.Codec
import GraphVault.Wire.Fault
import GraphVault.Wire.Varint
import GraphVault.Proofs.DirectoryContents
import GraphVault.Proofs.MakingDirectories
import GraphVault.Proofs.Roots
import GraphVault.Proofs.Coherence
import GraphVault.Proofs.CoherentHistories
import GraphVault.Proofs.Computation
import GraphVault.Proofs.ContentAddressing
import GraphVault.Proofs.Cells
import GraphVault.Proofs.DecoderSoundness
import GraphVault.Proofs.Exporting
import GraphVault.Proofs.Importing
import GraphVault.Proofs.GivingUp
import GraphVault.Proofs.Persisting
import GraphVault.Proofs.ReadingBack
import GraphVault.Proofs.ReferenceLoops
import GraphVault.Proofs.Operations
import GraphVault.Proofs.Regimes
import GraphVault.Proofs.ExportedPositions
import GraphVault.Proofs.KeptCopies
import GraphVault.Proofs.Saving
import GraphVault.Proofs.CatalogEntries
import GraphVault.Proofs.Graphs
import GraphVault.Proofs.Waves
import GraphVault.Proofs.Runs
import GraphVault.Proofs.Publishing
import GraphVault.Proofs.Grounding
import GraphVault.Proofs.Plans
import GraphVault.Proofs.Recovery
import GraphVault.Proofs.Layering
import GraphVault.Proofs.Listing
import GraphVault.Proofs.Executions
import GraphVault.Proofs.Mirroring
import GraphVault.Proofs.MirroredWork
import GraphVault.Proofs.Journals
import GraphVault.Proofs.Durability
import GraphVault.Proofs.LastWriters
import GraphVault.Proofs.Additions
import GraphVault.Proofs.Immutability
import GraphVault.Proofs.Availability
import GraphVault.Proofs.Rerunning
import GraphVault.Proofs.Independence
import GraphVault.Proofs.DirectoryCalls
import GraphVault.Proofs.Staging
import GraphVault.Proofs.WriteOnce
import GraphVault.Proofs.PublishingOrder
import GraphVault.Proofs.Retrievals
import GraphVault.Proofs.FailedExecutions
import GraphVault.Proofs.ClosedCopies
import GraphVault.Proofs.SelfDelimiting
import GraphVault.Proofs.StoredContent
import GraphVault.Proofs.RowOrder
import GraphVault.Proofs.RowVerdicts
import GraphVault.Proofs.InstanceSets
import GraphVault.Proofs.Unambiguity
import GraphVault.Proofs.References
import GraphVault.Proofs.StepOutputs
import GraphVault.Proofs.StepNames
import GraphVault.Proofs.Spellings
import GraphVault.Proofs.Previews
import GraphVault.Proofs.CatalogCalls
import GraphVault.Proofs.FittingOutputs
import GraphVault.Entity.Inverse
import GraphVault.Proofs.GuidTexts
import GraphVault.Proofs.Inverses
import GraphVault.Proofs.Purging
import GraphVault.Proofs.FiniteDoubles
import GraphVault.Proofs.JsonValues
import GraphVault.Proofs.CanonicalParameters
