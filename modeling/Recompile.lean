import Recompile.Bundle.Classification
import Recompile.Bundle.InitialFile
import Recompile.Bundle.Metafile
import Recompile.Bundle.Playback
import Recompile.Bundle.Result
import Recompile.Bundle.Runner
import Recompile.Data.Closure
import Recompile.Data.OrdMap
import Recompile.Diagnostic.Basic
import Recompile.Diagnostic.Message
import Recompile.Diagnostic.Wire
import Recompile.Digest.Basic
import Recompile.Digest.Xxh3
import Recompile.Emit.Script
import Recompile.Emit.Splice
import Recompile.Emit.Stylesheets
import Recompile.Engine.Basic
import Recompile.Engine.Emission
import Recompile.Engine.Findings
import Recompile.Host.Basic
import Recompile.Host.Disk
import Recompile.Host.FileSystem
import Recompile.Host.Session
import Recompile.Host.Styles
import Recompile.Host.Volume
import Recompile.Json.Basic
import Recompile.Json.Decode
import Recompile.Json.Parser
import Recompile.Json.Printer
import Recompile.Ledger.Basic
import Recompile.Ledger.BuildInfo
import Recompile.Options.Basic
import Recompile.Options.Project
import Recompile.Output
import Recompile.Path.Basic
import Recompile.Path.Normal
import Recompile.Program.Basic
import Recompile.Program.Build
import Recompile.Program.Checks
import Recompile.Program.Shadow
import Recompile.Program.Specifier
import Recompile.Proofs.Data.Closure
import Recompile.Proofs.Data.OrdMap
import Recompile.Proofs.Digest.Bytes
import Recompile.Proofs.Emit.Determined
import Recompile.Proofs.Emit.Script
import Recompile.Proofs.Emit.Stylesheets
import Recompile.Proofs.Engine.Emission
import Recompile.Proofs.Engine.FailedWrite
import Recompile.Proofs.Engine.Findings
import Recompile.Proofs.Engine.Outputs
import Recompile.Proofs.Engine.Run
import Recompile.Proofs.Engine.Transparency
import Recompile.Proofs.Ledger.Affected
import Recompile.Proofs.Path.Beside
import Recompile.Proofs.Path.Tidy
import Recompile.Proofs.Program.Build
import Recompile.Proofs.Program.Checks
import Recompile.Proofs.Program.Links
import Recompile.Proofs.Program.Resolution
import Recompile.Proofs.Program.Resources
import Recompile.Proofs.Program.Shadow
import Recompile.Proofs.Source.Registry
import Recompile.Script.Analysis
import Recompile.Script.Components
import Recompile.Script.Declarations
import Recompile.Script.Delimiters
import Recompile.Script.Exports
import Recompile.Script.Imports
import Recompile.Script.Literal
import Recompile.Script.Outline
import Recompile.Script.Scanner
import Recompile.Script.Stream
import Recompile.Script.Token
import Recompile.Source.Basic
import Recompile.Source.Registry
import Recompile.Source.Table
import Recompile.Template.Basic
import Recompile.Template.Fragments
import Recompile.Text.Basic
import Recompile.Text.Classes
import Recompile.Text.Utf8
import Recompile.Toml.Basic
import Recompile.Toml.Document
import Recompile.Toml.Grammar
import Recompile.Toml.Lexical
import Recompile.Toml.Scalar
import Recompile.Proofs.Data.Alike
import Recompile.Proofs.Json.RoundTrip
import Recompile.Proofs.Ledger.Written
import Recompile.Proofs.Program.Renaming
import Recompile.Proofs.Emit.Cuts
import Recompile.Proofs.Engine.Coverage
import Recompile.Proofs.Engine.FailedStart
import Recompile.Proofs.Engine.Faultless
import Recompile.Proofs.Script.Signature
import Recompile.Proofs.Emit.Renaming
import Recompile.Proofs.Host.Elsewhere
import Recompile.Proofs.Ledger.Recorded
import Recompile.Proofs.Program.Lockstep
import Recompile.Proofs.Program.Placed
import Recompile.Proofs.Emit.Erasure
import Recompile.Proofs.Engine.Unchanged
import Recompile.Proofs.Path.Normal
import Recompile.Proofs.Program.Closed
import Recompile.Proofs.Program.Identities
import Recompile.Proofs.Engine.Counterparts
import Recompile.Proofs.Engine.Restart
import Recompile.Proofs.Bundle.Loaded
import Recompile.Proofs.Program.Hidden
import Recompile.Proofs.Engine.Resources
import Recompile.Proofs.Engine.Handover
import Recompile.Proofs.Engine.Resumed
import Recompile.Proofs.Engine.Switched
import Recompile.Proofs.Data.Layers
import Recompile.Proofs.Bundle.Merged
import Recompile.Proofs.Bundle.Reordered
import Recompile.Proofs.Bundle.Sessions
import Recompile.Proofs.Ledger.Propagation
import Recompile.Proofs.Script.Lossless
import Recompile.Proofs.Script.Matching
import Recompile.Proofs.Digest.Frames
import Recompile.Proofs.Emit.Refreshed
import Recompile.Proofs.Engine.Fingerprints
import Recompile.Proofs.Program.StarExports
import Recompile.Proofs.Script.Escapes
import Recompile.Proofs.Script.Quoted
import Recompile.Proofs.Template.Offsets
import Recompile.Proofs.Program.TemplateSpans
import Recompile.Proofs.Text.Order
import Recompile.Proofs.Program.Selection
import Recompile.Proofs.Script.Patterns
import Recompile.Proofs.Script.Visits
import Recompile.Proofs.Script.Groups
import Recompile.Proofs.Script.Annotations
import Recompile.Proofs.Script.Decorated
import Recompile.Proofs.Program.UnusedImports
import Recompile.Proofs.Path.Action
import Recompile.Proofs.Path.Ways
import Recompile.Proofs.Emit.Splicing
import Recompile.Proofs.Source.Locations
import Recompile.Proofs.Emit.Extents
