import Kademlia.Foundations.AccessTrace
import Kademlia.Foundations.Worklist
import Kademlia.Foundations.BubbleSort
import Kademlia.Foundations.ByteSource
import Kademlia.Foundations.Splitting
import Kademlia.Model.Wire
import Kademlia.Model.Storage
import Kademlia.Model.Buckets
import Kademlia.Model.Requests
import Kademlia.Model.Sockets
import Kademlia.Model.Network
import Kademlia.Storage.ValueBounds
import Kademlia.Buckets.Indexing
import Kademlia.Framing.RecvAll
import Kademlia.Framing.Segmentation
import Kademlia.Framing.Truncation
import Kademlia.Framing.Peek
import Kademlia.Model.Vector
import Kademlia.Model.Lookup
import Kademlia.Lookup.Contact
import Kademlia.Lookup.Steps
import Kademlia.Lookup.Sweeps
import Kademlia.Lookup.FindValue
import Kademlia.Buckets.Distance
import Kademlia.Lookup.FindNode
import Kademlia.Lookup.Termination
import Kademlia.Lookup.Responses
import Kademlia.Buckets.Nearest
import Kademlia.Buckets.Closest
import Kademlia.Lookup.Uniqueness
import Kademlia.Storage.StoreFind
import Kademlia.Foundations.CString
import Kademlia.Framing.Datagrams
import Kademlia.Model.Http
import Kademlia.Http.Names
import Kademlia.Framing.RecvUntil
import Kademlia.Http.Requests
import Kademlia.Http.ContentLength
import Kademlia.Http.Leak
import Kademlia.Upload.Entry
import Kademlia.Upload.Accepted
import Kademlia.Upload.Distinct
import Kademlia.Upload.Agreement
import Kademlia.Model.Slot
import Kademlia.Framing.Oversized
import Kademlia.Http.Transfers
import Kademlia.Http.Headers
import Kademlia.Http.Exchanges
import Kademlia.Upload.ByName
import Kademlia.Foundations.Machine
import Kademlia.Foundations.BoundedFifo
import Kademlia.Model.Commands
import Kademlia.Commands.Queue
import Kademlia.Commands.Waiting
import Kademlia.Model.Connections
import Kademlia.Connections.Slots
import Kademlia.Connections.Shutdown
import Kademlia.Framing.BodySize
import Kademlia.Model.PeerArray
import Kademlia.Buckets.Answers
import Kademlia.Foundations.XorOrder
import Kademlia.Buckets.BucketOrder
import Kademlia.Buckets.Closeness
import Kademlia.Foundations.Linked
import Kademlia.Model.LinkedList
import Kademlia.Buckets.Deque
import Kademlia.Foundations.Hex
import Kademlia.Model.Magnet
import Kademlia.Magnets.RoundTrip
import Kademlia.Foundations.Paths
import Kademlia.Http.Confinement
import Kademlia.Http.Losses
import Kademlia.Http.PutBody
import Kademlia.Http.Fields
import Kademlia.Http.GetBody
import Kademlia.Model.Digest
import Kademlia.Magnets.Parsing
import Kademlia.Magnets.Lengths
import Kademlia.Upload.Leftovers
import Kademlia.Http.Extraction
import Kademlia.Http.Consistency
import Kademlia.Model.HeaderBuffer
import Kademlia.Http.StringAccess
import Kademlia.Http.HeaderBounds
import Kademlia.Framing.Contracts
import Kademlia.Foundations.Turning
import Kademlia.Foundations.Ties
import Kademlia.Vectors.Sorting
import Kademlia.Magnets.Freeing
import Kademlia.Foundations.FileTree
import Kademlia.Model.Copy
import Kademlia.Upload.Copying
import Kademlia.Foundations.Occurrence
import Kademlia.Model.CaseSearch
import Kademlia.Http.CaseSearch
import Kademlia.Foundations.RobinHood
import Kademlia.Model.HashMap
import Kademlia.Storage.Probing
import Kademlia.Storage.HashMap
import Kademlia.Storage.Backed
import Kademlia.Foundations.Layout
import Kademlia.Model.Packets
import Kademlia.Framing.Packets
import Kademlia.Model.Protocol
import Kademlia.Protocol.Delivery
import Kademlia.Protocol.Sincerity
import Kademlia.Protocol.Lookups
import Kademlia.Protocol.Reachable
import Kademlia.Protocol.Bounds
import Kademlia.Protocol.Exchange
import Kademlia.Protocol.Calls
import Kademlia.Protocol.Growth
import Kademlia.Protocol.Search
import Kademlia.Foundations.Service
import Kademlia.Commands.Answers
import Kademlia.Model.Identity
import Kademlia.Protocol.Identity
import Kademlia.Foundations.ByteSink
import Kademlia.Model.Sending
import Kademlia.Http.Sending
import Kademlia.Model.MagnetFiles
import Kademlia.Magnets.Files
import Kademlia.Foundations.Pacing
import Kademlia.Model.Schedule
import Kademlia.Connections.Tasks
import Kademlia.Foundations.Ledger
import Kademlia.Model.Ownership
import Kademlia.Lookup.Ownership
import Kademlia.Commands.Ownership
