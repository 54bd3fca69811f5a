import Crs.Foundation.Machine
import Crs.Foundation.Compaction
import Crs.Foundation.OrderedMap
import Crs.Foundation.OrderedBag
import Crs.Foundation.HeapOrder
import Crs.Foundation.RankedForest
import Crs.Foundation.Monitor
import Crs.Foundation.Word
import Crs.Foundation.Memory
import Crs.Foundation.Records
import Crs.Foundation.Framing
import Crs.Foundation.Blocks
import Crs.Foundation.Marks
import Crs.Foundation.Text
import Crs.Foundation.InputStream
import Crs.Foundation.Acyclic
import Crs.Foundation.Histogram
import Crs.Foundation.Scan
import Crs.Foundation.UrgentQueue
import Crs.Foundation.Pipeline
import Crs.Foundation.References
import Crs.Foundation.Ticks
import Crs.IntervalMap.Basic
import Crs.IntervalMap.Canonical
import Crs.Heap.Basic
import Crs.Heap.Run
import Crs.DisjointSet.Basic
import Crs.DisjointSet.Components
import Crs.DisjointSet.Run
import Crs.Semaphore.Basic
import Crs.Semaphore.Tokens
import Crs.Semaphore.Wakeup
import Crs.Barrier.Basic
import Crs.Barrier.Opening
import Crs.Barrier.Arrivals
import Crs.Ude.Packet
import Crs.Ude.PacketSizes
import Crs.Ude.NetPeer
import Crs.Ude.Reassembly
import Crs.Ude.Transmission
import Crs.Ude.ElementList
import Crs.Ude.ElementMap
import Crs.Ude.Ownership
import Crs.Ude.DeviceManager
import Crs.Ude.Delivery
import Crs.Ude.Requests
import Crs.EventLoop.Descriptors
import Crs.EventLoop.Control
import Crs.RingPool.Geometry
import Crs.RingPool.Handshake
import Crs.RingPool.Basic
import Crs.RingPool.Layout
import Crs.RingPool.Window
import Crs.RingPool.Progress
import Crs.RingPool.Kinds
import Crs.RingPool.Core
import Crs.RingPool.Fields
import Crs.RingPool.Evictions
import Crs.RingPool.Links
import Crs.RingPool.Calls
import Crs.RingPool.Records
import Crs.RingPool.Merges
import Crs.NetPoint.Server
import Crs.NetPoint.Delivery
import Crs.Sc.SerialByte
import Crs.Sc.Stream
import Crs.Sc.Replies
import Crs.Sc.Output
import Crs.Sc.Writes
import Crs.Ude.ClientStub
import Crs.Ude.TakeOrder
import Crs.Ude.Sleepers
import Crs.NetPoint.Commands
import Crs.Handle.Basic
import Crs.Handle.Counting
import Crs.Handle.Run
import Crs.Regions.Tracer
import Crs.Thread.Basic
import Crs.Thread.Wakeup
import Crs.Thread.Kill
import Crs.EventLoop.Confirmation
import Crs.Parsing.Basic
import Crs.Parsing.Words
import Crs.Parsing.Quotes
import Crs.ObjectIO.IniFile
import Crs.ObjectIO.Sections
import Crs.ObjectIO.RoundTrip
import Crs.CommandLine.Reader
import Crs.CommandLine.Scripts
import Crs.Peak.Basic
import Crs.Peak.Guess
import Crs.Peak.Passes
import Crs.Peak.Agreement
import Crs.EventLoop.Batch
import Crs.EventLoop.Poll
import Crs.Ude.SendOrder
import Crs.NetPoint.Clients
import Crs.DisjointSet.Classes
import Crs.DisjointSet.Ranks
import Crs.Heap.Indices
import Crs.Heap.Swap
import Crs.Ude.RawPackets
import Crs.IpChannel.Push
import Crs.Sc.Validation
import Crs.Sc.Synchronize
import Crs.Sc.Lines
import Crs.Sc.Filling
import Crs.RingPool.Sizes
import Crs.RingPool.Iterators
import Crs.RingPool.Intensity
import Crs.RingPool.Journal
import Crs.RingPool.Lookup
import Crs.RingPool.Bytes
import Crs.Parsing.Search
import Crs.Parsing.Endings
import Crs.CommandLine.Tokens
import Crs.CommandLine.Reset
import Crs.Parsing.Table
import Crs.ObjectIO.Objects
import Crs.ObjectIO.Modified
import Crs.ObjectIO.Reads
import Crs.Regions.Mutators
import Crs.Interpolation.Regression
import Crs.Interpolation.Lagrange
import Crs.Peak.SavitzkyGolay
import Crs.Peak.Leftovers
import Crs.Spectrum.Smoothing
import Crs.Foundation.Loops
import Crs.Foundation.Partition
import Crs.UniMath.Basic
import Crs.UniMath.AxisDelta
import Crs.UniMath.Root
import Crs.UniMath.FirstTick
import Crs.ObjectIO.Reordering
import Crs.Peak.Center
import Crs.Spectrum.Calls
import Crs.Spectrum.Copies
import Crs.Spectrum.Assignment
import Crs.Ude.Connection
import Crs.Ude.StubConnection
import Crs.Ude.StubReader
import Crs.Ude.RequestThread
import Crs.Ude.SharedPackets
import Crs.Ude.Sharing
import Crs.Ude.Gateway
import Crs.Ude.Server
import Crs.Ude.Exchange
import Crs.Ude.PingTool
import Crs.Ude.Elements
import Crs.IpChannel.Channel
import Crs.RingPool.Points
import Crs.Spectrum.Rows
