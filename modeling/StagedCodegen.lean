import StagedCodegen.CommandLine.Process
import StagedCodegen.Core
import StagedCodegen.Log.Opening
import StagedCodegen.Main
import StagedCodegen.Presentation
import StagedCodegen.Settings.Sources
import StagedCodegen.Proofs.Adapter.Settling
import StagedCodegen.Proofs.CommandLine.Generation
import StagedCodegen.Proofs.Core.Manifest
import StagedCodegen.Proofs.Representation.Fields
import StagedCodegen.Proofs.Run.Adapters
import StagedCodegen.Proofs.Run.Exchanges
import StagedCodegen.Proofs.Run.FragmentPhase
import StagedCodegen.Proofs.Schedule.Circles
import StagedCodegen.Proofs.Schedule.Earliest
import StagedCodegen.Proofs.Schedule.Fragments
import StagedCodegen.Proofs.Schedule.Overrides
import StagedCodegen.Proofs.Writes.Sequence
import StagedCodegen.Proofs.Adapter.Threading
import StagedCodegen.Proofs.Run.Chronicle
import StagedCodegen.Proofs.Text.Words
import StagedCodegen.Proofs.Representation.Snapshots
import StagedCodegen.Proofs.Core.Drafting
import StagedCodegen.Proofs.Core.Paths
import StagedCodegen.Proofs.Core.Success
import StagedCodegen.Proofs.Core.Targets
import StagedCodegen.Proofs.Disk.LinkFree
import StagedCodegen.Proofs.Writes.Held
import StagedCodegen.Proofs.Writes.Direct
import StagedCodegen.Proofs.Writes.Rehearsal
import StagedCodegen.Proofs.CommandLine.Repetition
import StagedCodegen.Proofs.Adapter.Absent
import StagedCodegen.Proofs.Settings.Sources
import StagedCodegen.Proofs.Schedule.Deletions
import StagedCodegen.Proofs.Representation.Histories
import StagedCodegen.Proofs.Writes.Stopping
import StagedCodegen.Proofs.Schedule.Builders
import StagedCodegen.Proofs.Core.Queue
import StagedCodegen.Proofs.Core.Reordering
import StagedCodegen.Proofs.CommandLine.Inside
import StagedCodegen.Proofs.Adapter.Vetting
import StagedCodegen.Proofs.SourceFormat.Openings
import StagedCodegen.Proofs.Core.Literals
import StagedCodegen.Proofs.Settings.Problems
import StagedCodegen.Proofs.Core.Identifiers
import StagedCodegen.Proofs.Core.Comments
import StagedCodegen.Proofs.Core.Capabilities
import StagedCodegen.Proofs.Writes.Summaries
import StagedCodegen.Proofs.Representation.Decoding
import StagedCodegen.Proofs.CommandLine.Listing
import StagedCodegen.Proofs.Settings.Variables
import StagedCodegen.Proofs.Path.NormalForms
import StagedCodegen.Proofs.Schedule.Searching
import StagedCodegen.Proofs.Run.Families
import StagedCodegen.Proofs.Schedule.Degrees
import StagedCodegen.Proofs.Text.Runs
import StagedCodegen.Proofs.Text.Runs
