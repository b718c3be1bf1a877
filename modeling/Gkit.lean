import Gkit.Auth.Middleware
import Gkit.Barriers.Release
import Gkit.Batch.Partition
import Gkit.Batch.Timing
import Gkit.CircuitBreaker.Probes
import Gkit.Config.Load
import Gkit.EventStore.Atomicity
import Gkit.EventStore.Composition
import Gkit.EventStore.Conflict
import Gkit.EventStore.Serializability
import Gkit.EventStore.Snapshots
import Gkit.Fan.Independence
import Gkit.Fan.Merge
import Gkit.Feature.Evaluation
import Gkit.Feature.Listing
import Gkit.Futures.All
import Gkit.JobQueue.Accounting
import Gkit.JobQueue.Attempts
import Gkit.JobQueue.Backoff
import Gkit.JobQueue.Lifecycle
import Gkit.Locking.Exclusion
import Gkit.Locking.WithLock
import Gkit.LruCache.Accounting
import Gkit.LruCache.History
import Gkit.LruCache.Inclusion
import Gkit.Metrics.InFlight
import Gkit.Metrics.Statuses
import Gkit.Outbox.Ordering
import Gkit.Outbox.Poison
import Gkit.Pipeline.Process
import Gkit.Pool.Conservation
import Gkit.Pool.Scrapes
import Gkit.Pool.Shutdown
import Gkit.PubSub.Delivery
import Gkit.PubSub.Topics
import Gkit.PubSub.Unbuffered
import Gkit.PubSub.Unsubscribe
import Gkit.RateLimit.Eviction
import Gkit.RateLimit.Isolation
import Gkit.RateLimit.Waiting
import Gkit.RedisCache.Commands
import Gkit.Retry.Backoff
import Gkit.Sagas.Compensation
import Gkit.Sched.Bounds
import Gkit.Store.Databases
import Gkit.Store.Flattening
import Gkit.Streams.Taking
import Gkit.Streams.Truncation
import Gkit.Throttle.Spacing
import Gkit.Validation.Arguments
import Gkit.Validation.Bounds
