import Seqscribe.Integrity
import Seqscribe.FinalityGate
import Seqscribe.Delivery
import Seqscribe.Generations
import Seqscribe.Provenance
import Seqscribe.Recovery
import Seqscribe.RegisterHistory
import Seqscribe.RegisterPayloads
import Seqscribe.Quarantine
import Seqscribe.RegisterSnapshot
import Seqscribe.RegisterRebase
import Seqscribe.RegisterOwned
import Seqscribe.Link
import Seqscribe.Session
import Seqscribe.DataLane
import Seqscribe.GrantAgreement
import Seqscribe.Greedy
import Seqscribe.LaneRoom
import Seqscribe.WantServe
import Seqscribe.WantLoop
import Seqscribe.Absorption
import Seqscribe.WantChain
import Seqscribe.Cluster
import Seqscribe.Spread
import Seqscribe.AckSafety
import Seqscribe.Beacon
import Seqscribe.BeaconDurability
import Seqscribe.Deltas
import Seqscribe.ViewDelta
import Seqscribe.SubHub
import Seqscribe.SubGaps
import Seqscribe.SubRegistry
import Seqscribe.LogUpkeep
import Seqscribe.Counts
import Seqscribe.LogOrder
import Seqscribe.ArchiveHistory
import Seqscribe.Deficits
import Seqscribe.Heads
import Seqscribe.RegisterConflicts
import Seqscribe.Clock
import Seqscribe.Redelivery
import Seqscribe.QuarantineLedger
import Seqscribe.Retired
import Seqscribe.PendingBuffer
import Seqscribe.AuthorClock
import Seqscribe.ScopeTails
import Seqscribe.CausalScopes
import Seqscribe.RegisterObserved
import Seqscribe.CausalStamping
import Seqscribe.FlushAbort
import Seqscribe.Compaction
import Seqscribe.FailedBuilds
import Seqscribe.KeyedReads
import Seqscribe.KeyedPrune
import Seqscribe.CharterNames
import Seqscribe.WantTerminal
import Seqscribe.HaveShape
import Seqscribe.HaveSize
import Seqscribe.AckedPlan
import Seqscribe.LagExclusion
import Seqscribe.AckedChunks
import Seqscribe.ChunkedPrune
import Seqscribe.RegisterGrants
import Seqscribe.Base64
import Seqscribe.SnapChunks
import Seqscribe.ChainPreimage
import Seqscribe.Scan
import Seqscribe.Savepoints
import Seqscribe.WasmHandle
import Seqscribe.SoleCopy
import Seqscribe.SubErrors
import Seqscribe.ConsumerCursors
import Seqscribe.ConsumerPlace
import Seqscribe.CaughtUp
import Seqscribe.BackingTable
import Seqscribe.DeltaCheck
import Seqscribe.DiffSync
import Seqscribe.Sanitize
import Seqscribe.CommitQueue
import Seqscribe.PolicyTable
import Seqscribe.JsonBytes
import Seqscribe.DataFrames
import Seqscribe.JsonRead
import Seqscribe.TopicRegistry
import Seqscribe.SchemaAgreement
import Seqscribe.EntryValidity
import Seqscribe.ChainAgreement
import Seqscribe.TextDecode
import Seqscribe.SnapshotHub
import Seqscribe.ViewBootstrap
