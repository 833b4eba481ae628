import TradeCore.Lib.AvlTree
import TradeCore.Lib.LinkedTree
import TradeCore.Orderbook.Records
import TradeCore.Orderbook.AvlTree
import TradeCore.Orderbook.AvlProofs
import TradeCore.Orderbook.AvlRuns
import TradeCore.Lib.Probing
import TradeCore.Orderbook.FlatHashMap
import TradeCore.Orderbook.FlatHashMapProofs
import TradeCore.Lib.LinkedList
import TradeCore.Memory.ObjectPoolProofs
import TradeCore.Orderbook.BookSide
import TradeCore.Orderbook.BookSideProofs
import TradeCore.Orderbook.LevelSteps
import TradeCore.Orderbook.BookSideRuns
import TradeCore.Orderbook.OrderBook
import TradeCore.Orderbook.BookRep
import TradeCore.Orderbook.BookSteps
import TradeCore.Orderbook.BookOps
import TradeCore.Lib.PriceTime
import TradeCore.Orderbook.AbstractBook
import TradeCore.Orderbook.BookSpecs
import TradeCore.Orderbook.BookFaults
import TradeCore.Orderbook.BookRuns
import TradeCore.Orderbook.BookChanges
import TradeCore.Memory.ObjectPoolRuns
import TradeCore.Memory.ArenaAllocator
import TradeCore.Memory.ArenaProofs
import TradeCore.Orderbook.BookCapacity
import TradeCore.Orderbook.BookSafety
import TradeCore.Matching.RiskPipeline
import TradeCore.Matching.LiquidityAnalyzer
import TradeCore.Matching.MatchingEngine
import TradeCore.Matching.MatchProofs
import TradeCore.Matching.EngineSpecs
import TradeCore.Matching.EngineRuns
import TradeCore.Matching.FillOrKill
import TradeCore.Matching.MatchMachine
import TradeCore.Matching.MatchProgress
import TradeCore.Orderbook.LevelLifecycle
import TradeCore.Orderbook.TreeStatistics
import TradeCore.Orderbook.SideCalls
import TradeCore.Orderbook.DenseBest
import TradeCore.Orderbook.TreeDepth
import TradeCore.Lib.PriceTimeFlow
import TradeCore.Matching.EngineCalls
import TradeCore.Matching.Conservation
import TradeCore.Matching.OrderFate
import TradeCore.Matching.RiskLimits
import TradeCore.Matching.TradeBuffer
import TradeCore.Orderbook.BookTotals
import TradeCore.Matching.LiquidityScan
import TradeCore.Lib.PriceTimeQueues
import TradeCore.Lib.Delimited
import TradeCore.Orderbook.BookDigest
import TradeCore.Orderbook.DigestProofs
import TradeCore.Lib.Absorb
import TradeCore.Orderbook.DigestFold
import TradeCore.Orderbook.BookCommute
import TradeCore.Orderbook.ReplaceOrder
import TradeCore.Matching.ClockFree
import TradeCore.Orderbook.Timestamps
import TradeCore.Lib.ByteOrder
import TradeCore.Common.Endian
import TradeCore.Parser.ItchParser
import TradeCore.Parser.ItchProofs
import TradeCore.Parser.ItchGrammar
import TradeCore.Network.MoldUDP64
import TradeCore.Network.MoldFraming
import TradeCore.Network.MoldSequence
import TradeCore.Network.MoldStream
import TradeCore.Orderbook.OrderBookVerifier
import TradeCore.Orderbook.VerifierProofs
import TradeCore.Orderbook.TopologyCheck
import TradeCore.Replay.ReplayEngine
import TradeCore.Replay.ReplayProofs
import TradeCore.Parser.ItchReading
import TradeCore.Replay.ReplayMatching
import TradeCore.Replay.FeedPipeline
import TradeCore.Replay.TimedReplay
import TradeCore.Lib.RingBuffer
import TradeCore.Lib.Traces
import TradeCore.Lockfree.SpscQueue
import TradeCore.Lockfree.SpscProofs
import TradeCore.Lockfree.QueueSize
import TradeCore.Lib.Ranks
import TradeCore.Telemetry.Histogram
import TradeCore.Telemetry.HistogramProofs
import TradeCore.Lib.RoundRobin
import TradeCore.Lockfree.MpscQueue
import TradeCore.Lockfree.MpscProofs
import TradeCore.Lockfree.MpscRuns
import TradeCore.Lockfree.MpscProgress
import TradeCore.Orderbook.VerifierSoundness
import TradeCore.Orderbook.VerifierCompleteness
import TradeCore.Orderbook.VerifierRuns
import TradeCore.Replay.TimedReplayProofs
import TradeCore.Matching.BookMirror
import TradeCore.Matching.RiskFilter
import TradeCore.Lib.Priority
import TradeCore.Matching.Priority
import TradeCore.Lib.SplitSweep
import TradeCore.Matching.SplitOrders
import TradeCore.Orderbook.BookAlike
import TradeCore.Orderbook.BookRebuild
import TradeCore.Lib.AvlRepairs
import TradeCore.Orderbook.Rotations
import TradeCore.Matching.EngineAlike
import TradeCore.Matching.EngineRebuild
