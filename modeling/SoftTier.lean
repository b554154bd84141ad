import SoftTier.Main
import SoftTier.Store.Probe
import SoftTier.Scene.Cache
import SoftTier.Scene.View
import SoftTier.Scene.Tracking
import SoftTier.Proofs.Recency.Ranking
import SoftTier.Proofs.Recency.Inclusion
import SoftTier.Proofs.Reclaimer.Tracking
import SoftTier.Proofs.Reclaimer.Bookkeeping
import SoftTier.Proofs.Reclaimer.Shrinking
import SoftTier.Proofs.Op
import SoftTier.Proofs.Probe
import SoftTier.Proofs.Changes
import SoftTier.Proofs.Session.Retry
import SoftTier.Proofs.Soft.Refusals
import SoftTier.Proofs.Soft.Pins
import SoftTier.Proofs.Soft.Operations
import SoftTier.Proofs.Soft.Coherence
import SoftTier.Proofs.Soft.Custody
import SoftTier.Proofs.Soft.Validity
import SoftTier.Proofs.Soft.Reachability
import SoftTier.Proofs.Soft.Partition
import SoftTier.Proofs.Session.Operations
import SoftTier.Proofs.Session.Sharing
import SoftTier.Proofs.Session.FailedCommits
import SoftTier.Proofs.Session.Isolation
import SoftTier.Proofs.Session.Readers
import SoftTier.Proofs.Session.Survivors
import SoftTier.Proofs.Soft.Safety
import SoftTier.Proofs.Soft.FailedWrites
import SoftTier.Proofs.Soft.Persistence
import SoftTier.Proofs.Soft.Freshness
import SoftTier.Proofs.Soft.Publishing
import SoftTier.Proofs.Soft.Exhaustion
import SoftTier.Proofs.Soft.Retention
import SoftTier.Proofs.Soft.Tracing
import SoftTier.Proofs.Soft.Reclamation
import SoftTier.Proofs.Blocking.Candor
import SoftTier.Proofs.Blocking.Release
import SoftTier.Proofs.Blocking.Removals
import SoftTier.Proofs.Blocking.Stranding
import SoftTier.Proofs.Reclaimer.Episodes
import SoftTier.Proofs.Reclaimer.Postings
import SoftTier.Proofs.Stack
import SoftTier.Proofs.Layers.Requests
import SoftTier.Proofs.Layers.Courses
import SoftTier.Proofs.Layers.Projections
import SoftTier.Proofs.Layers.Relaying
import SoftTier.Proofs.Layers.Acts
import SoftTier.Proofs.Layers.Insertion
import SoftTier.Proofs.Layers.Audit
import SoftTier.Proofs.Layers.Transparency
import SoftTier.Proofs.Session.Loading
import SoftTier.Proofs.UnitOfWork.Seats
import SoftTier.Proofs.UnitOfWork.Product
import SoftTier.Proofs.Service.Sessions
import SoftTier.Proofs.Service.Balance
import SoftTier.Proofs.Service.Reuse
import SoftTier.Proofs.Service.Pressure
import SoftTier.Proofs.Session.Gathering
import SoftTier.Proofs.Session.Nesting
import SoftTier.Proofs.Recorded
import SoftTier.Proofs.Session.Calls
import SoftTier.Proofs.UnitOfWork.Retry
import SoftTier.Proofs.Recency.Arena
import SoftTier.Proofs.Json.Cutting
import SoftTier.Proofs.Json.Reading
import SoftTier.Proofs.Settings
