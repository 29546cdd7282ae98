import Turbopump.PeerServer.Delivery
import Turbopump.PeerServer.ConcurrentWriters
import Turbopump.PeerServer.ConcurrentCommandCenter
import Turbopump.PeerServer.WriteSessions
import Turbopump.PeerServer.SessionStreams
import Turbopump.PeerServer.WholeWrites
import Turbopump.PeerServer.Datagrams
import Turbopump.PeerClient.MessageSender
import Turbopump.PeerClient.ContiguousData
import Turbopump.PeerClient.PartialTransfers
import Turbopump.Membership.AddressTable
import Turbopump.Callbacks.MembershipRuns
import Turbopump.Callbacks.MirrorToPeer
import Turbopump.Callbacks.OriginDrops
import Turbopump.Callbacks.ModifyPeer
import Turbopump.Callbacks.Placement
import Turbopump.Deskew.SynchronizedKeyTabulator
import Turbopump.Deskew.Classification
import Turbopump.Deskew.AntiEntropy
import Turbopump.Storage.BadVersions
import Turbopump.Storage.Duplicates
import Turbopump.Storage.Convergence
import Turbopump.Storage.SimpleConvergence
import Turbopump.Storage.SimpleSessions
import Turbopump.Storage.Enumeration
import Turbopump.Storage.SimpleNames
import Turbopump.Api.IndexSum
import Turbopump.Api.ChangedCopies
import Turbopump.UserServer.UserCommandContext
import Turbopump.Common.LegibleClocks
import Turbopump.PeerServer.PacketParser
import Turbopump.PeerServer.StreamIsolation
import Turbopump.Hashing.MinimalDisruption
import Turbopump.Deskew.MirrorIsolation
import Turbopump.Deskew.Synchronizer
import Turbopump.Deskew.SelectedTrees
import Turbopump.Api.CopyCommand
import Turbopump.Api.ListKeysCommand
import Turbopump.Api.SyncCommand
import Turbopump.Api.WaitCommand
import Turbopump.Membership.SavedPeers
import Turbopump.Storage.FailedCommits
