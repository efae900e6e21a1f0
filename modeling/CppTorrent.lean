import CppTorrent.Lib.Decimal
import CppTorrent.Lib.Stream
import CppTorrent.Lib.OrderedMap
import CppTorrent.Lib.BigEndian
import CppTorrent.Lib.Endian
import CppTorrent.Lib.Runs
import CppTorrent.Lib.Ledger
import CppTorrent.Lib.Chunks
import CppTorrent.Lib.Fallible
import CppTorrent.Lib.Growable
import CppTorrent.Lib.IndexedQueue
import CppTorrent.Lib.Ranges
import CppTorrent.Lib.Strands
import CppTorrent.Lib.CommonPrefix
import CppTorrent.Lib.MoveToFront
import CppTorrent.Lib.Grid
import CppTorrent.Lib.Fields
import CppTorrent.Lib.Formatting
import CppTorrent.Lib.PercentCoding
import CppTorrent.Lib.Delimited
import CppTorrent.Lib.History
import CppTorrent.Lib.Simulation
import CppTorrent.Lib.Writers
import CppTorrent.Lib.Pipes
import CppTorrent.Bencode.Serialize
import CppTorrent.Bencode.Deserialize
import CppTorrent.Bencode.Grammar
import CppTorrent.Bencode.InfoHash
import CppTorrent.Bencode.Unique
import CppTorrent.Bencode.RoundTrip
import CppTorrent.Bencode.Halting
import CppTorrent.Wire.ReadLoop
import CppTorrent.Lib.ByteFile
import CppTorrent.Files.Blocks
import CppTorrent.Files.Storage
import CppTorrent.Files.Layout
import CppTorrent.Files.MultiFile
import CppTorrent.Files.SingleFile
import CppTorrent.Files.SingleStore
import CppTorrent.Files.Reading
import CppTorrent.Files.Writers
import CppTorrent.Files.EmptyFiles
import CppTorrent.Files.Filling
import CppTorrent.Upload.Model
import CppTorrent.Upload.Cancel
import CppTorrent.Worker.AsyncWorker
import CppTorrent.Worker.Threads
import CppTorrent.Worker.Wakeups
import CppTorrent.Upload.Bookkeeping
import CppTorrent.Dht.Guid
import CppTorrent.Dht.Table
import CppTorrent.Dht.Placement
import CppTorrent.Dht.Unique
import CppTorrent.Dht.Capacity
import CppTorrent.Dht.Nearest
import CppTorrent.Dht.Metric
import CppTorrent.Dht.Prefix
import CppTorrent.Dht.Insertion
import CppTorrent.Dht.NodeClient
import CppTorrent.Wire.Bitfield
import CppTorrent.Wire.Message
import CppTorrent.Wire.HandleResponse
import CppTorrent.Wire.Delivery
import CppTorrent.Wire.TypedIo
import CppTorrent.Wire.SendQueue
import CppTorrent.Upload.Serving
import CppTorrent.Tracker.Promise
import CppTorrent.Tracker.Announce
import CppTorrent.Tracker.CompactPeers
import CppTorrent.Tracker.UdpRetries
import CppTorrent.Tracker.IpAddress
import CppTorrent.Tracker.AnnouncePacket
import CppTorrent.Tracker.UdpSession
import CppTorrent.Tracker.BestTracker
import CppTorrent.Tracker.AnyTracker
import CppTorrent.Tracker.HttpReply
import CppTorrent.Tracker.HttpResponse
import CppTorrent.Tracker.UrlEncode
import CppTorrent.Swarm.Model
import CppTorrent.Swarm.Steps
import CppTorrent.Swarm.Requests
import CppTorrent.Swarm.Answers
import CppTorrent.Swarm.Assembly
import CppTorrent.Swarm.AcceptedPieces
import CppTorrent.Swarm.PieceSizes
import CppTorrent.Swarm.ReadOrder
import CppTorrent.Swarm.BlockCount
import CppTorrent.Swarm.BlockSafety
import CppTorrent.Swarm.DiskIntegrity
import CppTorrent.Swarm.Progress
import CppTorrent.Swarm.Calls
import CppTorrent.Swarm.PeerPieces
import CppTorrent.Swarm.Lifecycle
import CppTorrent.Swarm.Choice
import CppTorrent.Swarm.Interleaving
import CppTorrent.Swarm.Holding
import CppTorrent.Swarm.Advance
import CppTorrent.Swarm.OnePeer
import CppTorrent.Swarm.InterleavedOrder
import CppTorrent.Swarm.Marks
import CppTorrent.Swarm.RequestedPieces
import CppTorrent.Swarm.Announcements
import CppTorrent.Swarm.Subscribers
import CppTorrent.Swarm.UnchokeSlots
import CppTorrent.Swarm.AddressText
import CppTorrent.Swarm.Coverage
import CppTorrent.Swarm.TimedClient
import CppTorrent.Swarm.Deadline
import CppTorrent.Swarm.Voices
import CppTorrent.Swarm.Conduct
import CppTorrent.Swarm.TwoClients
import CppTorrent.Swarm.Handshake
import CppTorrent.Swarm.Opening
import CppTorrent.Tracker.HttpRequest
import CppTorrent.Tracker.HttpExchange
import CppTorrent.Tracker.HttpSession
