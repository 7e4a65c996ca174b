import FleetControl.Registry
import FleetControl.Text.Blank
import FleetControl.Text.Duration
import FleetControl.Text.Percent
import FleetControl.Instance
import FleetControl.Request
import FleetControl.Random.Shuffle
import FleetControl.Region.View
import FleetControl.Placement.Election
import FleetControl.Placement.Selection
import FleetControl.Json
import FleetControl.Json.Reader
import FleetControl.Main
import FleetControl.Dispatch.Batch
import FleetControl.Pass
import FleetControl.Control.Step
import FleetControl.Proofs.Placement.Victims
import FleetControl.Proofs.Placement.Targets
import FleetControl.Proofs.Pass.Course
import FleetControl.Proofs.Pass.Availability
import FleetControl.Proofs.Control.Moves
import FleetControl.Proofs.Control.Tracks
import FleetControl.Proofs.Control.Overshoot
import FleetControl.Proofs.Control.Locks
import FleetControl.Proofs.Control.Listing
import FleetControl.Proofs.Engine
import FleetControl.Proofs.Pass.Holdings
import FleetControl.Proofs.Control.Accounts
import FleetControl.Proofs.Control.Balance
import FleetControl.Proofs.Control.Orphans
import FleetControl.Proofs.Dispatch.Calm
import FleetControl.Proofs.Pass.Success
import FleetControl.Proofs.Pass.Convergence
import FleetControl.Proofs.Container
import FleetControl.Proofs.Pass.Absorption
import FleetControl.Proofs.Control.Steps
import FleetControl.Proofs.Control.Serial
import FleetControl.Proofs.Control.Overlap
import FleetControl.Proofs.Dispatch.Calls
import FleetControl.Proofs.Control.Cancellation
import FleetControl.Proofs.Pass.Drain
import FleetControl.Proofs.Control.Drain
import FleetControl.Proofs.Control.Deletion
import FleetControl.Proofs.Region.Path
import FleetControl.Proofs.Region.Tree
import FleetControl.Proofs.Region.Operations
import FleetControl.Proofs.Region.Declarations
import FleetControl.Proofs.Config
import FleetControl.Proofs.Placement.Election
import FleetControl.Proofs.Region.Renumbering
import FleetControl.Proofs.Placement.Renumbering
import FleetControl.Proofs.Control.Processes
import FleetControl.Proofs.Control.Placeable
import FleetControl.Proofs.Control.Progress
import FleetControl.Proofs.Control.Answers
import FleetControl.Proofs.Control.Admission
import FleetControl.Proofs.Pass.Truth
import FleetControl.Proofs.Pass.Rest
import FleetControl.Proofs.Placement.Level
import FleetControl.Proofs.Pass.Spread
import FleetControl.Proofs.Control.Tally
import FleetControl.Proofs.Control.Published
import FleetControl.Proofs.Control.Coherence
import FleetControl.Proofs.Pass.Numbering
import FleetControl.Proofs.Control.Slots
import FleetControl.Proofs.Control.Numbering
import FleetControl.Proofs.Pass.Cap
import FleetControl.Proofs.Control.Cap
import FleetControl.Proofs.Pass.Likeness
import FleetControl.Proofs.Dispatch.Verdict
import FleetControl.Proofs.Control.Sweeps
import FleetControl.Proofs.Control.Standing
import FleetControl.Proofs.Control.Independence
import FleetControl.Proofs.Config.Toml
import FleetControl.Proofs.Api.Regions
import FleetControl.Proofs.Control.Bounds
import FleetControl.Proofs.Control.Dispatching
import FleetControl.Proofs.Placement.Sorting
import FleetControl.Proofs.Placement.VictimOrder
import FleetControl.Proofs.Placement.Selection
import FleetControl.Proofs.Pass.Ledger
import FleetControl.Proofs.Pass.Effects
import FleetControl.Proofs.Dispatch.Made
import FleetControl.Proofs.Dispatch.Isolation
import FleetControl.Proofs.Control.Reports
import FleetControl.Proofs.Control.Isolation
import FleetControl.Proofs.Region.Traversal
import FleetControl.Proofs.Placement.Membership
import FleetControl.Proofs.Placement.Relations
import FleetControl.Proofs.Region.Inheritance
import FleetControl.Proofs.Config.Report
import FleetControl.Proofs.Region.Spelling
import FleetControl.Proofs.Engine.Handles
import FleetControl.Proofs.Pass.ErrorLog
import FleetControl.Proofs.Control.ErrorLog
