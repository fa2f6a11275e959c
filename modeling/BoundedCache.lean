import BoundedCache.Cache.Run
import BoundedCache.Proofs.Buffers.Traffic
import BoundedCache.Proofs.Cache.AtRest
import BoundedCache.Proofs.Cache.Attempts
import BoundedCache.Proofs.Cache.Boundary
import BoundedCache.Proofs.Cache.Clearing
import BoundedCache.Proofs.Cache.Conditional
import BoundedCache.Proofs.Cache.Conservation
import BoundedCache.Proofs.Cache.Consistency
import BoundedCache.Proofs.Cache.Deliver
import BoundedCache.Proofs.Cache.EntryLedger
import BoundedCache.Proofs.Cache.EventLedger
import BoundedCache.Proofs.Cache.Fidelity
import BoundedCache.Proofs.Cache.Integrity
import BoundedCache.Proofs.Cache.Interrupted
import BoundedCache.Proofs.Cache.Listening
import BoundedCache.Proofs.Cache.Locked
import BoundedCache.Proofs.Cache.Mappings
import BoundedCache.Proofs.Cache.Orderly
import BoundedCache.Proofs.Cache.Quiescence
import BoundedCache.Proofs.Cache.Refusals
import BoundedCache.Proofs.Cache.Retirement
import BoundedCache.Proofs.Cache.Sizes
import BoundedCache.Proofs.Cache.Superseded
import BoundedCache.Proofs.Cache.Timing
import BoundedCache.Proofs.Deque.Roll
import BoundedCache.Proofs.Deque.Survey
import BoundedCache.Proofs.Deque.Validate
import BoundedCache.Proofs.Deque.Weights
import BoundedCache.Proofs.Engine.Clear
import BoundedCache.Proofs.Engine.Confluence
import BoundedCache.Proofs.Engine.Eviction
import BoundedCache.Proofs.Lru.Inclusion
import BoundedCache.Proofs.Lru.Refinement
import BoundedCache.Proofs.Relay
import BoundedCache.Proofs.Store
import BoundedCache.Workbench
