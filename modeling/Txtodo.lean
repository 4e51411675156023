import Txtodo.Std.Utf8
import Txtodo.Std.Iter
import Txtodo.Std.KeySorted
import Txtodo.Std.Columns
import Txtodo.Std.OrdMap
import Txtodo.Std.EditGraph
import Txtodo.Std.Loop
import Txtodo.Std.Waiting
import Txtodo.Std.Standing
import Txtodo.Core.Types
import Txtodo.Core.Ulid
import Txtodo.Core.Scanner
import Txtodo.Core.Parse
import Txtodo.Core.Grammar
import Txtodo.Core.File
import Txtodo.Core.Proofs.FileProofs
import Txtodo.Core.Edit
import Txtodo.Model.Hlc
import Txtodo.Model.Op
import Txtodo.Model.TagText
import Txtodo.Engine.TextHistory
import Txtodo.Engine.State
import Txtodo.Engine.StateOrder
import Txtodo.Engine.StateGhosts
import Txtodo.Engine.Fields
import Txtodo.Engine.StateApply
import Txtodo.Engine.Slots
import Txtodo.Engine.Mutation
import Txtodo.Engine.SyncPark
import Txtodo.Engine.Reachable
import Txtodo.Engine.Refusal
import Txtodo.Engine.Proofs.TextHistoryProofs
import Txtodo.Engine.Proofs.SlotsProofs
import Txtodo.Engine.Proofs.SoundProofs
import Txtodo.Engine.Proofs.FieldsProofs
import Txtodo.Engine.Proofs.PlacingProofs
import Txtodo.Engine.Proofs.ReachableProofs
import Txtodo.Engine.Proofs.TaskLifeProofs
import Txtodo.Engine.Proofs.RefusalProofs
import Txtodo.Engine.Restamp
import Txtodo.Engine.Proofs.LenientProofs
import Txtodo.Engine.Proofs.ParkedProofs
import Txtodo.Engine.Proofs.ParkingProofs
import Txtodo.Engine.Proofs.PlacedProofs
import Txtodo.Engine.Proofs.StrandedProofs
import Txtodo.Engine.Proofs.KeepsProofs
import Txtodo.Engine.Proofs.RestampProofs
import Txtodo.Engine.Proofs.ReplayProofs
import Txtodo.Daemon.ActorClock
import Txtodo.Daemon.Proofs.ActorClockProofs
import Txtodo.Core.Diff
import Txtodo.Core.Proofs.MyersProofs
import Txtodo.Engine.Proofs.TextEditProofs
import Txtodo.Core.Proofs.UlidProofs
import Txtodo.Core.Proofs.ParseProofs
import Txtodo.Core.Proofs.GrammarProofs
import Txtodo.Core.Proofs.WordReadingProofs
import Txtodo.Core.Proofs.WordRunProofs
import Txtodo.Core.Proofs.StrictProofs
import Txtodo.Core.LineDiff
import Txtodo.Core.LineFixes
import Txtodo.Engine.IdStrip
import Txtodo.Engine.Reconcile
import Txtodo.Engine.ReconcileSidecar
import Txtodo.Engine.Proofs.SidecarProofs
import Txtodo.Engine.ReconcileReplay
import Txtodo.Engine.MutationOps
import Txtodo.Daemon.FileActor
import Txtodo.Store.OriginLog
import Txtodo.Daemon.History
import Txtodo.Daemon.SyncOps
import Txtodo.Engine.Proofs.HeaderProofs
import Txtodo.Engine.Proofs.FastIdProofs
import Txtodo.Engine.Proofs.AssignIdsProofs
import Txtodo.Engine.Proofs.ClaimsProofs
import Txtodo.Engine.Proofs.PruneProofs
import Txtodo.Engine.Proofs.NewestProofs
import Txtodo.Engine.Proofs.EvenBlanksProofs
import Txtodo.Engine.Proofs.TakeOverProofs
import Txtodo.Engine.Proofs.SettleProofs
import Txtodo.Daemon.Proofs.PreviewProofs
import Txtodo.Engine.Proofs.InOrderProofs
import Txtodo.Daemon.Proofs.HistoryProofs
import Txtodo.Std.Word
import Txtodo.Sync.Heads
import Txtodo.Sync.Message
import Txtodo.Sync.WorkspaceSession
import Txtodo.Sync.Proofs.HeadsProofs
import Txtodo.Sync.Proofs.SessionProofs
import Txtodo.Daemon.Landing
import Txtodo.Daemon.CarrierTick
import Txtodo.Daemon.Proofs.LandingProofs
import Txtodo.Daemon.Proofs.CarrierTickProofs
import Txtodo.Daemon.WriteDefer
import Txtodo.Daemon.Proofs.WriteDeferProofs
import Txtodo.Daemon.ServeMerged
import Txtodo.Daemon.Proofs.ServeMergedProofs
import Txtodo.Daemon.Proofs.ServeWindowProofs
import Txtodo.Daemon.Proofs.ServeAllProofs
import Txtodo.Daemon.Live
import Txtodo.Daemon.Proofs.LinkArithmeticProofs
import Txtodo.Daemon.Proofs.NotesRepairProofs
import Txtodo.Core.Proofs.CompletionProofs
import Txtodo.Core.Chips
import Txtodo.Core.Proofs.ChipsProofs
import Txtodo.Core.Proofs.InverseProofs
import Txtodo.Core.Reading
import Txtodo.Core.Proofs.ReadingProofs
import Txtodo.Core.Proofs.PutGetProofs
import Txtodo.Core.Tokenize
import Txtodo.Core.Proofs.TokenizeProofs
import Txtodo.Core.Merge3
import Txtodo.Core.Proofs.Merge3Proofs
import Txtodo.Core.Proofs.MergeOrderProofs
import Txtodo.Core.Proofs.LineDiffProofs
import Txtodo.Cli.PlanCheck
import Txtodo.Cli.CompletePlan
import Txtodo.Cli.ArchivePlan
import Txtodo.Cli.Proofs.PlanCheckProofs
import Txtodo.Cli.Proofs.CompletePlanProofs
import Txtodo.Cli.Proofs.ArchivePlanProofs
import Txtodo.Std.Bytes
import Txtodo.Sync.Frame
import Txtodo.Sync.Carrier
import Txtodo.Sync.Proofs.FrameProofs
import Txtodo.Sync.Proofs.CarrierFailureProofs
import Txtodo.Sync.Proofs.CarrierProofs
import Txtodo.Std.Drain
import Txtodo.Store.OpTable
import Txtodo.Daemon.Bundle
import Txtodo.Daemon.BundleExport
import Txtodo.Daemon.BundleImport
import Txtodo.Daemon.Proofs.BundleStreamProofs
import Txtodo.Daemon.Proofs.BundleProofs
import Txtodo.Std.Patch
import Txtodo.Std.UnifiedFormat
import Txtodo.Engine.UnifiedDiff
import Txtodo.Engine.Proofs.UnifiedDiffProofs
import Txtodo.Core.Proofs.WordPathProofs
import Txtodo.Mcp.Proofs.RowProofs
import Txtodo.Std.Paging
import Txtodo.Std.Split
import Txtodo.Daemon.Proofs.HistoryReadProofs
import Txtodo.Core.Proofs.WordSplitProofs
import Txtodo.Engine.Proofs.IdScanProofs
import Txtodo.Engine.Proofs.IdStripProofs
import Txtodo.Engine.Proofs.TagTextProofs
import Txtodo.Std.Attempts
import Txtodo.Std.Disk
import Txtodo.Daemon.RefDir
import Txtodo.Daemon.RefDirOps
import Txtodo.Daemon.Proofs.RefDirProofs
import Txtodo.Mcp.Proofs.RowAgreesProofs
import Txtodo.Core.Proofs.WordFrontProofs
import Txtodo.Core.Proofs.TagWordProofs
import Txtodo.Core.Proofs.LineFixesProofs
import Txtodo.Mcp.FieldPatch
import Txtodo.Mcp.Proofs.FieldPatchProofs
import Txtodo.Engine.NotesState
import Txtodo.Daemon.NotesRepair
import Txtodo.Daemon.Proofs.BundleReaderProofs
import Txtodo.Engine.Proofs.MovesProofs
import Txtodo.Sync.Proofs.NonceRegistryProofs
import Txtodo.Tui.Proofs.ReadlineProofs
import Txtodo.Tui.Proofs.TextInputProofs
import Txtodo.Relay.Proofs.StoreProofs
import Txtodo.Core.Proofs.UniversalProofs
import Txtodo.Std.TomlLines
import Txtodo.Daemon.WorkspaceName
import Txtodo.Daemon.Proofs.WorkspaceNameProofs
import Txtodo.Std.Radix
import Txtodo.Daemon.GroupRotation
import Txtodo.Daemon.Proofs.GroupRotationProofs
import Txtodo.Daemon.Proofs.ControlFlowProofs
import Txtodo.Engine.Proofs.FrameProofs
import Txtodo.Engine.Proofs.GhostsProofs
import Txtodo.Std.FileTree
import Txtodo.Model.Layout
import Txtodo.Daemon.Walker
import Txtodo.Daemon.Proofs.WalkerProofs
import Txtodo.Model.Tree
import Txtodo.Model.Proofs.TreeProofs
import Txtodo.Daemon.Tree
import Txtodo.Daemon.Proofs.TreeProofs
import Txtodo.Sync.Pairing
import Txtodo.Daemon.PairingState
import Txtodo.Daemon.Proofs.PairingProofs
import Txtodo.Daemon.Proofs.HelloProofs
