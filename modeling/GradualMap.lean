import GradualMap.Action
import GradualMap.Bucket.Array
import GradualMap.Bucket.Chain
import GradualMap.Bucket.Tag
import GradualMap.Decimal.Shortest
import GradualMap.Event
import GradualMap.Failure
import GradualMap.Key.Floating
import GradualMap.Key.Hasher
import GradualMap.Key.Masked
import GradualMap.Key.Scheme
import GradualMap.Key.Standard
import GradualMap.Map.Basic
import GradualMap.Map.Latch
import GradualMap.Map.Lookup
import GradualMap.Map.Update
import GradualMap.Proofs.Accord
import GradualMap.Proofs.Arena
import GradualMap.Proofs.Array
import GradualMap.Proofs.Call
import GradualMap.Proofs.Calm
import GradualMap.Proofs.Capacity
import GradualMap.Proofs.Census
import GradualMap.Proofs.Chain
import GradualMap.Proofs.Claim
import GradualMap.Proofs.Crowding
import GradualMap.Proofs.Cursor
import GradualMap.Proofs.Destination
import GradualMap.Proofs.Dictionary
import GradualMap.Proofs.Drive
import GradualMap.Proofs.Effort
import GradualMap.Proofs.Estimate
import GradualMap.Proofs.Evacuation
import GradualMap.Proofs.Fault
import GradualMap.Proofs.Flock
import GradualMap.Proofs.Gather
import GradualMap.Proofs.Growth
import GradualMap.Proofs.Herd
import GradualMap.Proofs.Internal
import GradualMap.Proofs.Invariant
import GradualMap.Proofs.Iteration
import GradualMap.Proofs.Keys
import GradualMap.Proofs.Latch
import GradualMap.Proofs.Linkage
import GradualMap.Proofs.Load
import GradualMap.Proofs.Locality
import GradualMap.Proofs.Loss
import GradualMap.Proofs.Memory
import GradualMap.Proofs.Moves
import GradualMap.Proofs.Operation
import GradualMap.Proofs.Outcome
import GradualMap.Proofs.Outing
import GradualMap.Proofs.Pacing
import GradualMap.Proofs.Partition
import GradualMap.Proofs.Passage
import GradualMap.Proofs.Path
import GradualMap.Proofs.Place
import GradualMap.Proofs.Probe
import GradualMap.Proofs.Progress
import GradualMap.Proofs.Raise
import GradualMap.Proofs.Removal
import GradualMap.Proofs.Repair
import GradualMap.Proofs.Repeat
import GradualMap.Proofs.Request
import GradualMap.Proofs.Resizing
import GradualMap.Proofs.Rest
import GradualMap.Proofs.Retention
import GradualMap.Proofs.Rounds
import GradualMap.Proofs.Row
import GradualMap.Proofs.Scheme
import GradualMap.Proofs.Seek
import GradualMap.Proofs.Served
import GradualMap.Proofs.Share
import GradualMap.Proofs.Sieve
import GradualMap.Proofs.Simulation
import GradualMap.Proofs.Stages
import GradualMap.Proofs.Step
import GradualMap.Proofs.Store
import GradualMap.Proofs.Stray
import GradualMap.Proofs.Sweep
import GradualMap.Proofs.Tour
import GradualMap.Proofs.Unison
import GradualMap.Proofs.Visit
import GradualMap.Proofs.Walk
import GradualMap.Random.Draws
import GradualMap.Table.Assign
import GradualMap.Table.Basic
import GradualMap.Table.Evacuation
import GradualMap.Table.Find
import GradualMap.Table.Load
import GradualMap.Table.Remove
import GradualMap.Table.Retain
import GradualMap.Text.Listing
import GradualMap.Text.Number
import GradualMap.Text.Quoted
import GradualMap.Text.Visible
import GradualMap.Traversal.Cursor
import GradualMap.Traversal.Start
import GradualMap.Traversal.Sweep
import GradualMap.Traversal.Walk
