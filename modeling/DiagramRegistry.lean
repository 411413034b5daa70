import DiagramRegistry.Main
import DiagramRegistry.Proofs.Disk.Following
import DiagramRegistry.Proofs.Identity.Stem
import DiagramRegistry.Proofs.Lifecycle.Verdict
import DiagramRegistry.Repository.Memory
import DiagramRegistry.Proofs.Disk.Files
import DiagramRegistry.Proofs.Repository.Places
import DiagramRegistry.Proofs.Repository.View
import DiagramRegistry.Proofs.Repository.PartialMap
import DiagramRegistry.Proofs.Reference.OwnPath
import DiagramRegistry.Proofs.Repository.Listing
import DiagramRegistry.Proofs.Identity.Survival
import DiagramRegistry.Proofs.Lifecycle.OnDisk
import DiagramRegistry.Proofs.CommandLine.Atomic
import DiagramRegistry.Proofs.Disk.Onward
import DiagramRegistry.Proofs.Identity.Admissible
import DiagramRegistry.Proofs.Reference.Agreement
import DiagramRegistry.Proofs.Repository.Tidy
import DiagramRegistry.Proofs.Repository.TidyOperations
import DiagramRegistry.Proofs.Repository.SetUp
import DiagramRegistry.Proofs.Lifecycle.Mirror
import DiagramRegistry.Proofs.Lifecycle.Backends
import DiagramRegistry.Proofs.Json.RoundTrip
import DiagramRegistry.Proofs.Reference.Addressing
import DiagramRegistry.Proofs.Identity.Storable
import DiagramRegistry.Proofs.Lifecycle.TidyStore
import DiagramRegistry.Proofs.Lifecycle.DiskLayout
import DiagramRegistry.Proofs.Disk.Confined
import DiagramRegistry.Proofs.Repository.Confinement
import DiagramRegistry.Proofs.Reference.Reach
import DiagramRegistry.Proofs.Reference.Attribution
import DiagramRegistry.Proofs.Reference.Backtracking
import DiagramRegistry.Proofs.Reference.Siblings
import DiagramRegistry.Proofs.Reference.Entering
import DiagramRegistry.Proofs.Lifecycle.StoredFindings
import DiagramRegistry.Proofs.Document.Live
import DiagramRegistry.Proofs.Document.Markers
import DiagramRegistry.Proofs.Document.Transition
import DiagramRegistry.Proofs.Document.Directive
import DiagramRegistry.Proofs.Document.Inert
import DiagramRegistry.Proofs.Validation.Positions
import DiagramRegistry.Proofs.Validation.Strictness
import DiagramRegistry.Proofs.Repository.RelativePath
import DiagramRegistry.Proofs.Identity.Apart
import DiagramRegistry.Proofs.Identity.Splitting
