import ByteTrust.Main
import ByteTrust.Program.Draft
import ByteTrust.Snapshot.Order
import ByteTrust.Proofs.ByteSet
import ByteTrust.Proofs.Snapshot.View
import ByteTrust.Proofs.Snapshot.Meet
import ByteTrust.Proofs.Snapshot.History
import ByteTrust.Proofs.Snapshot.Regroup
import ByteTrust.Proofs.Except
import ByteTrust.Proofs.Program.Layout
import ByteTrust.Proofs.Program.Link
import ByteTrust.Proofs.Program.Linked
import ByteTrust.Proofs.DeadStore.Paths
import ByteTrust.Proofs.DeadStore.Expand
import ByteTrust.Proofs.DeadStore.Exact
import ByteTrust.Proofs.Snapshot.Trust
import ByteTrust.Proofs.Interference.Transfer
import ByteTrust.Proofs.Interference.Bins
import ByteTrust.Proofs.Interference.Walks
import ByteTrust.Proofs.Interference.Order
import ByteTrust.Proofs.Interference.Tidy
import ByteTrust.Proofs.Interference.Tame
import ByteTrust.Proofs.Interference.Paths
import ByteTrust.Proofs.Interference.Explained
import ByteTrust.Proofs.Interference.Covers
import ByteTrust.Proofs.Interference.Sound
import ByteTrust.Proofs.Interference.Needs
import ByteTrust.Proofs.Interference.Reported
import ByteTrust.Proofs.Interference.Structured
import ByteTrust.Proofs.Program.Shape
import ByteTrust.Proofs.Program.ExtraEdge
import ByteTrust.Proofs.Program.Overwrites
import ByteTrust.Proofs.Snapshot.Compare
import ByteTrust.Proofs.Interference.Balanced
import ByteTrust.Proofs.Interference.Tentative
import ByteTrust.Proofs.Interference.Completes
import ByteTrust.Proofs.Interference.EveryPath
import ByteTrust.Proofs.Interference.Leftover
import ByteTrust.Proofs.Interference.Promotions
import ByteTrust.Proofs.DeadStore.Answers
import ByteTrust.Proofs.DeadStore.Silenced
import ByteTrust.Proofs.Interference.Abreast
import ByteTrust.Proofs.Interference.Course
import ByteTrust.Proofs.Interference.Shared
import ByteTrust.Proofs.Interference.Skips
import ByteTrust.Proofs.Interference.Entry
import ByteTrust.Proofs.Snapshot.Sharing
import ByteTrust.Proofs.Program.EdgeOrder
import ByteTrust.Proofs.Interference.EdgeOrder
import ByteTrust.Proofs.DeadStore.EdgeOrder
import ByteTrust.Proofs.DeadStore.Verdicts
import ByteTrust.Proofs.DeadStore.Emitted
import ByteTrust.Proofs.DeadStore.Overlooked
import ByteTrust.Proofs.Json.Restores
import ByteTrust.Proofs.Program.Restores
import ByteTrust.Proofs.Program.RoundTrip
import ByteTrust.Proofs.Interference.SingleThread
import ByteTrust.Proofs.Interference.References
import ByteTrust.Proofs.Interference.Effects
import ByteTrust.Proofs.Interference.Stale
import ByteTrust.Proofs.Interference.GivenUp
import ByteTrust.Proofs.Interference.Vouched
import ByteTrust.Proofs.DeadStore.Gaps
import ByteTrust.Proofs.DeadStore.Routes
import ByteTrust.Proofs.Snapshot.Bounded
import ByteTrust.Proofs.Program.Filed
import ByteTrust.Proofs.Program.Draft
import ByteTrust.Proofs.Interference.Counts
import ByteTrust.Proofs.ByteSet.Normal
import ByteTrust.Proofs.DeadStore.Bitmap
import ByteTrust.Proofs.Interference.Reachable
import ByteTrust.Proofs.Program.Lineage
import ByteTrust.Proofs.Interference.Depth
