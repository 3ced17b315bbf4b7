import LibApollo.Base.FiniteMap
import LibApollo.Base.Result
import LibApollo.Base.Run
import LibApollo.Base.Network
import LibApollo.Base.Ancestry
import LibApollo.Base.Code
import LibApollo.Base.Turns
import LibApollo.Types.Block
import LibApollo.Types.Symbolic
import LibApollo.Types.Storage
import LibApollo.Types.LeaderChain
import LibApollo.Mempool.Batches
import LibApollo.Mempool.Txpool
import LibApollo.Mempool.RepInvariant
import LibApollo.Mempool.Lifecycle
import LibApollo.Mempool.RRBatcher
import LibApollo.Apollo.Context
import LibApollo.Apollo.Handlers
import LibApollo.Apollo.Reactor
import LibApollo.Apollo.Effects
import LibApollo.Apollo.Invariant
import LibApollo.Apollo.CommitSafety
import LibApollo.Apollo.Agreement
import LibApollo.Apollo.Authenticity
import LibApollo.Apollo.Confluence
import LibApollo.Apollo.Host
import LibApollo.Apollo.Reports
import LibApollo.Apollo.Inclusion
import LibApollo.Artemis.Context
import LibApollo.Artemis.Handlers
import LibApollo.Artemis.Reactor
import LibApollo.Artemis.Rotation
import LibApollo.Artemis.Delivery
import LibApollo.Artemis.Effects
import LibApollo.Artemis.Invariant
import LibApollo.Artemis.VoteSafety
import LibApollo.Artemis.Agreement
import LibApollo.Artemis.BlockAuthenticity
import LibApollo.Artemis.Confluence
import LibApollo.Synchs.Context
import LibApollo.Synchs.Handlers
import LibApollo.Synchs.Reactor
import LibApollo.Synchs.Ledger
import LibApollo.Synchs.Refinement
import LibApollo.Synchs.Equivocation
import LibApollo.Optsync.Handlers
import LibApollo.Optsync.Reactor
import LibApollo.Optsync.Refinement
import LibApollo.Optsync.Agreement
import LibApollo.Optsync.ResponsiveQuorum
import LibApollo.Synchs.Steps
import LibApollo.Optsync.Tallies
import LibApollo.Optsync.Checks
import LibApollo.Optsync.VoteChain
import LibApollo.Optsync.CommitOrder
import LibApollo.Types.CommitLog
import LibApollo.Mempool.Notices
import LibApollo.Mempool.Committer
import LibApollo.Apollo.Commits
import LibApollo.Artemis.Commits
import LibApollo.Commits
import LibApollo.Mempool.ConfirmationRouter
import LibApollo.Base.Codec
import LibApollo.Types.Wire
import LibApollo.Wire
import LibApollo.Mempool.ReplayFilter
import LibApollo.Apollo.Transitions
import LibApollo.Apollo.Rounds
import LibApollo.Apollo.EquivocationCheck
import LibApollo.Artemis.Transitions
import LibApollo.Artemis.MissingParents
import LibApollo.Responses
import LibApollo.Artemis.Buffers
import LibApollo.Buffers
import LibApollo.Heights
import LibApollo.Synchs.Announcements
import LibApollo.Optsync.Announcements
import LibApollo.Optsync.Ballots
import LibApollo.Optsync.Proposals
import LibApollo.Base.Filling
import LibApollo.Mempool.MakeBatch
import LibApollo.Mempool.Races
import LibApollo.Types.HeightIndex
import LibApollo.Config
import LibApollo.Synchs.Client
import LibApollo.Optsync.VoteMaps
import LibApollo.Base.Progress
import LibApollo.Mempool.Pipeline
import LibApollo.Mempool.Handover
import LibApollo.Synchs.Host
import LibApollo.Optsync.ClientOrder
import LibApollo.Synchs.Siblings
import LibApollo.Apollo.Turn
import LibApollo.Apollo.Liveness
import LibApollo.Base.Stopwatch
import LibApollo.Mempool.Client
import LibApollo.Mempool.Service
import LibApollo.CommandLine
import LibApollo.Genconfig
import LibApollo.Deployment
import LibApollo.Mempool.SharedStores
import LibApollo.Mempool.ClientWire
import LibApollo.Base.ReplicatedLog
import LibApollo.Mempool.CommitOrder
import LibApollo.Apollo.TotalOrder
import LibApollo.Artemis.TotalOrder
import LibApollo.Cluster
