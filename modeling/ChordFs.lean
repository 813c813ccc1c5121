import ChordFs.Lib.TermLog
import ChordFs.Lib.Consensus
import ChordFs.Lib.ConsensusSafety
import ChordFs.RaftCore
import ChordFs.RaftEffects
import ChordFs.RaftDurability
import ChordFs.RaftWorld
import ChordFs.RaftRefinement
import ChordFs.RaftAppend
import ChordFs.RaftFinish
import ChordFs.RaftInputs
import ChordFs.RaftGroup
import ChordFs.RaftSafety
import ChordFs.RaftCommit
import ChordFs.RaftReads
import ChordFs.Lib.Text
import ChordFs.Lib.LineLog
import ChordFs.Words
import ChordFs.Net
import ChordFs.Lib.SortedMap
import ChordFs.Names
import ChordFs.RaftWire
import ChordFs.LogFile
import ChordFs.LogRecovery
import ChordFs.Commands
import ChordFs.Lib.Circle
import ChordFs.Lib.Dialogue
import ChordFs.Peers
import ChordFs.Chord
import ChordFs.Lookup
import ChordFs.LookupSafety
import ChordFs.Stabilize
import ChordFs.StabilizeEffects
import ChordFs.RingNet
import ChordFs.RingWired
import ChordFs.RingFixed
import ChordFs.RingHeals
import ChordFs.Lib.Walk
import ChordFs.RingJoins
import ChordFs.RingTimeline
import ChordFs.RingConverge
import ChordFs.Lib.Paging
import ChordFs.Manifest
import ChordFs.Collect
import ChordFs.CollectSafety
import ChordFs.Lib.Pool
import ChordFs.Member
import ChordFs.MemberInvariant
import ChordFs.MemberRouting
import ChordFs.MemberStrikes
import ChordFs.MemberEvictions
import ChordFs.RingSteps
import ChordFs.Lib.Volume
import ChordFs.Lib.Runs
import ChordFs.Store
import ChordFs.StoreGrace
import ChordFs.StoreMachine
import ChordFs.StoreAlone
import ChordFs.StoreRaces
import ChordFs.StoreCrash
import ChordFs.Lib.Distinct
import ChordFs.Replicas
import ChordFs.RingWalk
import ChordFs.Coordinate
import ChordFs.NamesHistory
import ChordFs.Lib.Cursor
import ChordFs.NamesPages
import ChordFs.ManifestText
import ChordFs.Lib.Tiling
import ChordFs.ManifestTree
import ChordFs.ManifestBuild
import ChordFs.Lib.Workers
import ChordFs.Transfer
import ChordFs.TransferSafety
import ChordFs.RoundTrip
import ChordFs.Serve
import ChordFs.ServeStream
import ChordFs.ChunkNode
import ChordFs.Repair
import ChordFs.Lib.Growth
import ChordFs.Cluster
import ChordFs.Owners
import ChordFs.ClusterGrowth
import ChordFs.RepairRestores
import ChordFs.RepairShelf
import ChordFs.Group
import ChordFs.Eviction
import ChordFs.MemberLists
import ChordFs.FingerCycle
import ChordFs.NeighboursWire
import ChordFs.RingRejoin
import ChordFs.BodySlots
import ChordFs.LogBatches
import ChordFs.ReplicaWrites
