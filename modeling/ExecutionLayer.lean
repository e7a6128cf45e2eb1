import ExecutionLayer.Library.StepSystem
import ExecutionLayer.Library.AverageCost
import ExecutionLayer.Library.FiniteMap
import ExecutionLayer.Library.MachineInt
import ExecutionLayer.Library.Framing
import ExecutionLayer.Library.Window
import ExecutionLayer.Library.Pacing
import ExecutionLayer.Library.Polyline
import ExecutionLayer.Types
import ExecutionLayer.Portfolio
import ExecutionLayer.RiskAndMatching
import ExecutionLayer.OrderManager
import ExecutionLayer.OrderRuns
import ExecutionLayer.RiskGates
import ExecutionLayer.Blotter
import ExecutionLayer.NotionalCap
import ExecutionLayer.RoundTrips
import ExecutionLayer.MarketStore
import ExecutionLayer.Engine
import ExecutionLayer.EngineAccount
import ExecutionLayer.FeedServer
import ExecutionLayer.MalformedLines
import ExecutionLayer.Publisher
import ExecutionLayer.PublisherSurvival
import ExecutionLayer.CoinbaseTasks
import ExecutionLayer.FeedLink
import ExecutionLayer.RequestHandoff
import ExecutionLayer.WireFormat
import ExecutionLayer.ChartHistory
import ExecutionLayer.Batching
import ExecutionLayer.Resync
import ExecutionLayer.Desk
import ExecutionLayer.ChartOrder
import ExecutionLayer.WatchLists
import ExecutionLayer.Flattening
import ExecutionLayer.LimitPrices
import ExecutionLayer.LateFills
import ExecutionLayer.PollChannel
import ExecutionLayer.PollInvariant
import ExecutionLayer.PollReplies
import ExecutionLayer.FillSplitting
import ExecutionLayer.CostBasis
import ExecutionLayer.DanglingOrders
import ExecutionLayer.OneSidedMarks
import ExecutionLayer.ChartFocus
import ExecutionLayer.LineFraming
import ExecutionLayer.StockPoller
import ExecutionLayer.StockRate
import ExecutionLayer.StockBackoff
import ExecutionLayer.Library.Calendar
import ExecutionLayer.AlpacaClient
import ExecutionLayer.StockHistory
import ExecutionLayer.PnlPanel
import ExecutionLayer.EngineLoop
import ExecutionLayer.Library.CText
import ExecutionLayer.TerminalWindow
import ExecutionLayer.OrderTicket
import ExecutionLayer.Timestamps
import ExecutionLayer.Library.PyValue
import ExecutionLayer.VenueMessages
import ExecutionLayer.PriceChart
import ExecutionLayer.ExchangeTape
import ExecutionLayer.CandleBackfill
import ExecutionLayer.Library.Handles
import ExecutionLayer.FeedProcess
import ExecutionLayer.FeedServerThread
import ExecutionLayer.EngineLifecycle
import ExecutionLayer.EngineShutdown
import ExecutionLayer.EventLog
import ExecutionLayer.StockDesk
import ExecutionLayer.Catalog
import ExecutionLayer.PartialFills
import ExecutionLayer.ConnectPacing
import ExecutionLayer.KillSwitch
