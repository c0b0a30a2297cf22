import Prequal.Foundation.Runtime
import Prequal.Foundation.Vec
import Prequal.Foundation.OrderStatistic
import Prequal.Foundation.LatestMap
import Prequal.Foundation.Window
import Prequal.Foundation.Nearest
import Prequal.Foundation.Simulation
import Prequal.Foundation.Execution
import Prequal.Foundation.Cumulative
import Prequal.Foundation.Registry
import Prequal.Foundation.Rotation
import Prequal.Foundation.Transition
import Prequal.Foundation.Service
import Prequal.Foundation.Smoothing
import Prequal.Config
import Prequal.Client.Pool
import Prequal.Client.Threshold
import Prequal.Client.Select
import Prequal.Client.Runs
import Prequal.Client.Policy
import Prequal.Client.Round
import Prequal.Client.Ledger
import Prequal.Client.Compensation
import Prequal.Client.Lifetime
import Prequal.Client.LockStep
import Prequal.Client.Removal
import Prequal.Client.Herding
import Prequal.Client.Eviction
import Prequal.Client.Bag
import Prequal.Client.Safety
import Prequal.Client.Overflow
import Prequal.Client.Wrr
import Prequal.Client.Refresher
import Prequal.Client.Arrivals
import Prequal.Servers.LatencyRing
import Prequal.Servers.Sharing
import Prequal.Servers.Leading
import Prequal.Servers.Wrap
import Prequal.Servers.Replica
import Prequal.Servers.Estimate
import Prequal.Servers.Accounting
import Prequal.Servers.Antagonist
import Prequal.Servers.CpuTracker
import Prequal.Servers.Utilisation
import Prequal.Client.Rescale
import Prequal.Client.Balancer
import Prequal.Metrics.Collector
import Prequal.Servers.Drain
import Prequal.Servers.Readings
import Prequal.Cluster.Model
import Prequal.Cluster.Requests
import Prequal.Cluster.Probing
import Prequal.Cluster.Provenance
import Prequal.Cluster.Staleness
import Prequal.Cluster.Choices
import Prequal.Cluster.Completion
import Prequal.Cluster.Refinement
import Prequal.Cluster.Decisions
import Prequal.Cluster.Estimates
