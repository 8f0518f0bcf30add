import AsioAggregator.Accesses
import AsioAggregator.Atomicity
import AsioAggregator.BooklessMessages
import AsioAggregator.BybitReplay
import AsioAggregator.Clients.RunLoop
import AsioAggregator.Deadline
import AsioAggregator.Decimals
import AsioAggregator.EndToEnd
import AsioAggregator.Isolation
import AsioAggregator.KeepAlive
import AsioAggregator.Leftovers
import AsioAggregator.Library.Fifo
import AsioAggregator.Library.Scripts
import AsioAggregator.Library.Simulation
import AsioAggregator.Library.Weights
import AsioAggregator.Lifetime
import AsioAggregator.Market
import AsioAggregator.PositiveLevels
import AsioAggregator.Replication
import AsioAggregator.RetryBudget
import AsioAggregator.Shutdown
import AsioAggregator.Snapshots
import AsioAggregator.Stages
import AsioAggregator.StaleLevels
import AsioAggregator.Startup
import AsioAggregator.Stranded
import AsioAggregator.Subscribers
import AsioAggregator.Timestamps
import AsioAggregator.Turns
