import TradingEcosystem.OrderBook.Rings
import TradingEcosystem.OrderBook.Index
import TradingEcosystem.Library.KeyedTable
import TradingEcosystem.OrderBook.MarketData
import TradingEcosystem.OrderBook.MarketOrderId
import TradingEcosystem.OrderBook.AskRing
import TradingEcosystem.OrderBook.Tidy
import TradingEcosystem.OrderBook.Purity
import TradingEcosystem.OrderBook.Uncrossed
import TradingEcosystem.OrderBook.Cancel
import TradingEcosystem.MemPool.Exclusive
import TradingEcosystem.OrderBook.LevelPool
import TradingEcosystem.OrderBook.Accounting
import TradingEcosystem.OrderBook.Insertion
import TradingEcosystem.Library.PriceTime
import TradingEcosystem.OrderBook.AskSide
import TradingEcosystem.MatchingEngine
import TradingEcosystem.OrderBook.Lifecycle
import TradingEcosystem.OrderBook.Owners
import TradingEcosystem.OrderBook.Faults
import TradingEcosystem.MatchingEngine.Trades
import TradingEcosystem.LFQueue
import TradingEcosystem.LFQueue.Interleaving
import TradingEcosystem.FIFOSequencer
import TradingEcosystem.Library.Codec
import TradingEcosystem.Library.Framing
import TradingEcosystem.Wire
import TradingEcosystem.Library.Template
import TradingEcosystem.Logging
import TradingEcosystem.TCPSocket
import TradingEcosystem.OrderServer
import TradingEcosystem.OrderServer.Receiving
import TradingEcosystem.OrderServer.Admission
import TradingEcosystem.OrderServer.Rejection
import TradingEcosystem.OrderServer.Segmentation
import TradingEcosystem.OrderServer.Lossless
import TradingEcosystem.OrderServer.Responses
import TradingEcosystem.OrderServer.Round
import TradingEcosystem.OrderServer.Routing
import TradingEcosystem.OrderServer.Polling
import TradingEcosystem.OrderServer.Publishing
import TradingEcosystem.OrderServer.Faults
import TradingEcosystem.OrderServer.Outbound
import TradingEcosystem.OrderServer.Connections
import TradingEcosystem.Library.Erasure
import TradingEcosystem.OrderServer.Logs
import TradingEcosystem.Exchange
import TradingEcosystem.Exchange.Validation
import TradingEcosystem.MatchingEngine.Delivery
import TradingEcosystem.Library.Reading
import TradingEcosystem.Library.SortedScan
import TradingEcosystem.OrderBook.Printing
import TradingEcosystem.OrderBook.Shutdown
import TradingEcosystem.OrderBook.Stops
import TradingEcosystem.Library.PriorityLine
import TradingEcosystem.OrderBook.Market
import TradingEcosystem.OrderBook.Refinement
import TradingEcosystem.OrderBook.Conservation
import TradingEcosystem.MatchingEngine.Isolation
import TradingEcosystem.MatchingEngine.Shutdown
import TradingEcosystem.MatchingEngine.Logs
import TradingEcosystem.Exchange.ExactlyOnce
import TradingEcosystem.Exchange.Service
import TradingEcosystem.Exchange.Live
import TradingEcosystem.Exchange.Progress
import TradingEcosystem.Logging.Closing
import TradingEcosystem.McastSocket
