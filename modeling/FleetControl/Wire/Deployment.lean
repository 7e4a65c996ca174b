import FleetControl.Deployment
import FleetControl.Engine
import FleetControl.Wire.Fleet

/-!
# Deployment records as data

The JSON in which records, reports, failures and containers are written.
-/

namespace FleetControl

/-- The name of a state. -/
def DeploymentState.word : DeploymentState → String
  | .pending => "pending"
  | .converging => "converging"
  | .converged => "converged"
  | .degraded => "degraded"

/-- The name of a kind of dispatch. -/
def DispatchKind.word : DispatchKind → String
  | .create => "create"
  | .remove => "remove"

/-- How a failure is written. -/
def Failure.toJson (f : Failure) : Json :=
  .object [("node_id", .text f.nodeId), ("kind", .text f.kind.word),
    ("instance_id", .ofOption .text f.instanceId), ("error", .text f.error),
    ("at", .number f.occurredAt)]

/-- How a warning is written. -/
def Warning.toJson : Warning → Json
  | .underProvisioned needed eligible shortfall =>
    .object [("kind", .text "under_provisioned"), ("needed", .number needed),
      ("eligible", .number eligible), ("shortfall", .number shortfall)]

/-- How a report is written. -/
def Report.toJson (r : Report) : Json :=
  .object [("deployment_id", .text r.deploymentId), ("desired", .number r.desired),
    ("eligible", .ofOption .number r.eligible), ("created", .number r.created),
    ("removed", .number r.removed), ("stale_removed", .number r.staleRemoved),
    ("lost", .number r.lost), ("failed", .number r.failed), ("shortfall", .number r.shortfall),
    ("skipped", .number r.skipped), ("cancelled", .bool r.cancelled),
    ("instances", .number r.instances), ("state", .text r.state.word),
    ("started_at", .number r.startedAt), ("finished_at", .number r.finishedAt)]

/-- How a record is written. -/
def Deployment.toJson (d : Deployment) : Json :=
  .object [("id", .text d.id), ("request", d.request.toJson),
    ("spec_fingerprint", .text d.specFingerprint), ("generation", .number d.generation),
    ("state", .text d.state.word), ("target_regions", .texts (d.targetRegions.map (·.toString))),
    ("instances", .list (d.instances.map Instance.toJson)),
    ("error_log", .list (d.errorLog.map Failure.toJson)),
    ("warnings", .list (d.warnings.map Warning.toJson)), ("created_at", .number d.createdAt),
    ("last_reconciled_at", .ofOption .number d.lastReconciledAt),
    ("consecutive_degraded_passes", .number d.consecutiveDegradedPasses),
    ("last_report", .ofOption Report.toJson d.lastReport)]

/-- How a container is written. -/
def RunningContainer.toJson (c : RunningContainer) : Json :=
  .object [("handle", .text c.handle), ("node_id", .text c.nodeId), ("image", .text c.image)]

end FleetControl
