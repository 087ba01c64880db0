import Rom.Bytes
import Rom.Runs
import Rom.Sequence
import Rom.Parity
import Rom.Fec
import Rom.FecRuns
import Rom.AckTracker
import Rom.AckRuns
import Rom.Pruning
import Rom.Congestion
import Rom.CongestionRuns
import Rom.Bitmaps
import Rom.Window
import Rom.SackRanges
import Rom.Replication
import Rom.Causality
import Rom.FirstMax
import Rom.Keyed
import Rom.Counting
import Rom.LwwRegister
import Rom.LwwRuns
import Rom.LwwMerges
import Rom.Authors
import Rom.OrSet
import Rom.OrSetWire
import Rom.OrSetRuns
import Rom.FreshTags
import Rom.Observed
import Rom.AddWins
import Rom.Patterns
import Rom.StatePath
import Rom.Crypto
import Rom.Capability
import Rom.CapabilityRuns
import Rom.Containment
import Rom.Frames
import Rom.Codec
import Rom.CodecRuns
import Rom.Counters
import Rom.CounterWire
import Rom.CounterRuns
import Rom.CounterSums
import Rom.Registry
import Rom.Replicas
import Rom.VersionVector
import Rom.VersionOrder
import Rom.Recovery
import Rom.VersionDecoding
import Rom.Freshness
import Rom.Skips
import Rom.Orderly
import Rom.Echoes
import Rom.Resolution
import Rom.Windows
import Rom.FilterRuns
import Rom.Relay
import Rom.RelayRuns
import Rom.RelayBooks
import Rom.Routing
import Rom.RouteLists
import Rom.RouteRuns
import Rom.RouteStats
import Rom.Connection
import Rom.Handshake
import Rom.Links
import Rom.Lifecycle
import Rom.Agreement
import Rom.Reports
import Rom.Absorption
import Rom.Peer
import Rom.PeerFrames
import Rom.Expiry
import Rom.Poll
import Rom.Highest
import Rom.Slots
import Rom.Announcements
import Rom.Credits
import Rom.Malformed
import Rom.CountFields
import Rom.RoundTrips
import Rom.CounterJoin
import Rom.Pending
import Rom.TypeSafety
import Rom.Paths
import Rom.PeerSend
import Rom.PeerWrites
import Rom.LastWrite
import Rom.Confusion
import Rom.Checked
import Rom.Subscription
import Rom.TokenTrips
import Rom.Decoders
import Rom.FrameLoops
import Rom.DecoderRuns
import Rom.AsyncTransport
import Rom.AsyncRuns
import Rom.Channels
import Rom.Transports
import Rom.Flows
import Rom.Refinement
import Rom.RelayLevels
import Rom.RelayMesh
import Rom.RelayCircles
import Rom.NodeNetwork
import Rom.NodeCounters
import Rom.NodeCatchUp
import Rom.NodeRegisters
import Rom.NodeSends
import Rom.NodeLoopback
import Rom.Observer
import Rom.Resync
import Rom.NodeReach
import Rom.Outbox
