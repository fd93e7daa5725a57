import Mdfh.Library.LittleEndian
import Mdfh.Library.Layout
import Mdfh.Library.Scanner
import Mdfh.Library.Keyed
import Mdfh.Library.KeyedEdit
import Mdfh.Library.OrdMap
import Mdfh.Library.Transition
import Mdfh.Library.Outcome
import Mdfh.Library.Slots
import Mdfh.Library.Interleave
import Mdfh.Library.Stdio
import Mdfh.Library.Handles
import Mdfh.Protocol
import Mdfh.Serialization
import Mdfh.Codec
import Mdfh.WireLayout
import Mdfh.Parser
import Mdfh.Framing
import Mdfh.Stream
import Mdfh.Reencode
import Mdfh.SequenceTracker
import Mdfh.SequenceAccounting
import Mdfh.FeedHandler
import Mdfh.Reassembly
import Mdfh.Delivery
import Mdfh.UntrustedBytes
import Mdfh.ParserSafety
import Mdfh.OrderBook
import Mdfh.BookCells
import Mdfh.BookRefinement
import Mdfh.BookFills
import Mdfh.BookQueries
import Mdfh.BookDepth
import Mdfh.BookEdits
import Mdfh.BookCrossing
import Mdfh.BookSpread
import Mdfh.BookProjection
import Mdfh.BookVolumes
import Mdfh.BookBuilder
import Mdfh.BookIsolation
import Mdfh.FrameWalk
import Mdfh.Accounting
import Mdfh.Resends
import Mdfh.Fingerprint
import Mdfh.Simulator
import Mdfh.SimulatorRegistry
import Mdfh.SimulatorState
import Mdfh.SimulatorPrices
import Mdfh.SimulatorFills
import Mdfh.SimulatorRun
import Mdfh.SimulatorEdits
import Mdfh.SimulatorDepth
import Mdfh.SimulatorSnapshots
import Mdfh.SimulatorRange
import Mdfh.SimulatorStream
import Mdfh.ExchangeFeed
import Mdfh.OrderHistory
import Mdfh.BookVerify
import Mdfh.Replay
import Mdfh.ReplayPacing
import Mdfh.Capture
import Mdfh.CaptureContents
import Mdfh.RecordedRun
import Mdfh.SpscQueue
import Mdfh.SpscFifo
import Mdfh.Pipeline
import Mdfh.PipelineProof
import Mdfh.TickDelivery
import Mdfh.TickSamples
import Mdfh.Progress
import Mdfh.FairRuns
import Mdfh.MalformedPaths
import Mdfh.Sockets
import Mdfh.TcpFeed
import Mdfh.TcpDelivery
import Mdfh.SamePaths
import Mdfh.LossyDelivery
import Mdfh.UdpFeed
import Mdfh.TradedVolume
