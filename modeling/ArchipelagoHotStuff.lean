import ArchipelagoHotStuff.Crypto.Certificates
import ArchipelagoHotStuff.General.VoteLedger
import ArchipelagoHotStuff.Consensus.Handlers
import ArchipelagoHotStuff.Consensus.Effects
import ArchipelagoHotStuff.Consensus.Tree
import ArchipelagoHotStuff.Consensus.Trails
import ArchipelagoHotStuff.Consensus.Ballots
import ArchipelagoHotStuff.Consensus.Machine
import ArchipelagoHotStuff.Consensus.Voting
import ArchipelagoHotStuff.Consensus.CommitLog
import ArchipelagoHotStuff.Consensus.Setup
import ArchipelagoHotStuff.Consensus.VoteCount
import ArchipelagoHotStuff.Archipelago.Leader
import ArchipelagoHotStuff.Archipelago.Median
import ArchipelagoHotStuff.Network.Model
import ArchipelagoHotStuff.Network.Chains
import ArchipelagoHotStuff.Network.Refinement
import ArchipelagoHotStuff.Network.Heights
import ArchipelagoHotStuff.Network.Agreement
import ArchipelagoHotStuff.Network.Tails
import ArchipelagoHotStuff.Network.Faultless
import ArchipelagoHotStuff.Archipelago.Follower
import ArchipelagoHotStuff.Archipelago.CommitOrder
import ArchipelagoHotStuff.Base.Commands
import ArchipelagoHotStuff.Base.Proposals
import ArchipelagoHotStuff.Archipelago.Execution
import ArchipelagoHotStuff.Archipelago.Batches
import ArchipelagoHotStuff.Archipelago.Replies
import ArchipelagoHotStuff.Archipelago.Quorums
import ArchipelagoHotStuff.Base.Delivery
import ArchipelagoHotStuff.Base.Promises
import ArchipelagoHotStuff.Base.Wakeups
import ArchipelagoHotStuff.Base.DeliveredTree
import ArchipelagoHotStuff.Archipelago.Completions
import ArchipelagoHotStuff.Archipelago.LifeCycle
import ArchipelagoHotStuff.Consensus.Messages
import ArchipelagoHotStuff.Consensus.Waiting
import ArchipelagoHotStuff.Consensus.AnyOrder
import ArchipelagoHotStuff.Consensus.HighTail
import ArchipelagoHotStuff.Consensus.Leaves
import ArchipelagoHotStuff.Consensus.FailedProposals
import ArchipelagoHotStuff.Consensus.Stages
import ArchipelagoHotStuff.Consensus.Duplicates
import ArchipelagoHotStuff.Archipelago.Messages
import ArchipelagoHotStuff.Archipelago.Ordering1
import ArchipelagoHotStuff.Archipelago.Cuts
import ArchipelagoHotStuff.Crypto.Bitmaps
import ArchipelagoHotStuff.Crypto.Pool
import ArchipelagoHotStuff.Base.Rejections
import ArchipelagoHotStuff.Base.Orphans
import ArchipelagoHotStuff.Liveness.Targets
import ArchipelagoHotStuff.Base.Requests
import ArchipelagoHotStuff.Base.Addresses
import ArchipelagoHotStuff.Liveness.Pacemaker
import ArchipelagoHotStuff.Liveness.Rotation
import ArchipelagoHotStuff.Liveness.Beats
import ArchipelagoHotStuff.Liveness.Policy
import ArchipelagoHotStuff.Consensus.Levels
import ArchipelagoHotStuff.Liveness.Proposing
import ArchipelagoHotStuff.Consensus.Prune
import ArchipelagoHotStuff.Consensus.Pruned
import ArchipelagoHotStuff.Consensus.Pruning
import ArchipelagoHotStuff.Consensus.Leading
import ArchipelagoHotStuff.Liveness.Agendas
import ArchipelagoHotStuff.Liveness.Elections
import ArchipelagoHotStuff.Consensus.Lines
import ArchipelagoHotStuff.Liveness.Pipeline
import ArchipelagoHotStuff.Network.Replication
import ArchipelagoHotStuff.Network.Memory
import ArchipelagoHotStuff.Async.Joins
