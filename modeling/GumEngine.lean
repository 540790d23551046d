import GumEngine.Laws.Outbox
import GumEngine.Laws.Demotion
import GumEngine.Laws.Receipts
import GumEngine.Cluster.Fencing
import GumEngine.Ingest.Batch
import GumEngine.Funds.Treasury
import GumEngine.Pipeline.ExactlyOnce
import GumEngine.Confirm.Canonical
import GumEngine.Confirm.Accounts
import GumEngine.Pipeline.Gapless
import GumEngine.Pair.Gates
import GumEngine.Webhook.Dispatch
import GumEngine.Ingest.Faults
import GumEngine.Chain.Fees
import GumEngine.Queue.Wakeups
import GumEngine.Queue.Tracked
import GumEngine.Queue.Backpressure
import GumEngine.Bench.Verdict
import GumEngine.Bench.Exact
import GumEngine.Rpc.Client
import GumEngine.Funds.Ledger
import GumEngine.Funds.Reconcile
import GumEngine.Funds.Shortfall
import GumEngine.Chain.Costs
import GumEngine.Funds.Reservation
import GumEngine.Funds.RateCap
import GumEngine.Pipeline.Escalation
import GumEngine.Pipeline.Stuck
import GumEngine.Chain.FeeCache
import GumEngine.Pipeline.Deadline
import GumEngine.Queue.Counted
import GumEngine.Rpc.Credits
import GumEngine.Webhook.Breaker
import GumEngine.Ingest.Canonical
import GumEngine.Pipeline.Estimation
import GumEngine.Net.RoundTrip
import GumEngine.Webhook.ValidateUrl
import GumEngine.Pipeline.Marks
import GumEngine.Pipeline.Recovered
import GumEngine.Pipeline.Calls
import GumEngine.Pipeline.Attribution
import GumEngine.Pipeline.Fidelity
import GumEngine.Leader.Rebuild
import GumEngine.Leader.Takeover
import GumEngine.Chain.Monitor
import GumEngine.Chain.Timely
import GumEngine.Pair.Watched
import GumEngine.Rpc.Limiter
import GumEngine.Webhook.Deliver
import GumEngine.Webhook.Ordered
import GumEngine.Pipeline.Submissions
import GumEngine.Pipeline.Released
