import Grintorrent.Htable.Basic
import Grintorrent.Htable.Invariant
import Grintorrent.Htable.Growth
import Grintorrent.File.Basic
import Grintorrent.File.Hashing
import Grintorrent.File.Chunks
import Grintorrent.File.Verify
import Grintorrent.Client.Basic
import Grintorrent.File.Copies
import Grintorrent.Client.Handling
import Grintorrent.Client.Download
import Grintorrent.Lib.Runs
import Grintorrent.Client.Swarm
import Grintorrent.Client.FileData
import Grintorrent.Message.Basic
import Grintorrent.Message.Framing
import Grintorrent.Message.Senders
import Grintorrent.Client.Peers
import Grintorrent.Gossip.Basic
import Grintorrent.Gossip.Coverage
import Grintorrent.Gossip.Flood
import Grintorrent.Client.Links
import Grintorrent.Client.Buffer
import Grintorrent.Client.Reading
import Grintorrent.Request.Basic
import Grintorrent.Request.Hops
import Grintorrent.Request.Tree
import Grintorrent.Request.Reply
import Grintorrent.Client.Entries
import Grintorrent.Client.Sharing
import Grintorrent.Client.Serving
import Grintorrent.Client.Interference
import Grintorrent.Client.Release
import Grintorrent.Htable.Wrapping
import Grintorrent.File.Descriptors
import Grintorrent.Client.Locking
import Grintorrent.File.Saving
import Grintorrent.Client.Lengths
import Grintorrent.Htable.Counting
import Grintorrent.Htable.Cycling
import Grintorrent.Client.Dropping
import Grintorrent.Client.PeerRuns
import Grintorrent.Lib.Chains
import Grintorrent.Ui.Messages
import Grintorrent.Message.Discarding
import Grintorrent.Message.Segments
import Grintorrent.Ui.Selection
import Grintorrent.File.Seeking
import Grintorrent.Gossip.Quiet
import Grintorrent.Client.Downloading
import Grintorrent.Client.Seeding
import Grintorrent.Client.Interleaved
import Grintorrent.Client.Worker
import Grintorrent.Client.Joining
import Grintorrent.Ui.Loop
import Grintorrent.Htable.Racing
import Grintorrent.Htable.Serial
import Grintorrent.Client.Obtaining
import Grintorrent.Client.Sockets
import Grintorrent.Htable.Snapshot
import Grintorrent.Client.Exchange
import Grintorrent.Lib.Spreading
import Grintorrent.Request.Dying
import Grintorrent.Lib.Onward
import Grintorrent.Request.Circling
import Grintorrent.File.Failing
