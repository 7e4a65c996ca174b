import FleetControl.Config
import FleetControl.Region.View

/-!
# Report on a configuration

The report shows the outline of the declared regions, counts regions and nodes, names the
policies, and warns of every node bound to a region that is not declared. It fails on a path that
cannot be read.
-/

namespace FleetControl

/-- The name of a policy in a report. -/
def PolicyKind.title : PolicyKind → String
  | .spread => "Spread"
  | .binPack => "BinPack"
  | .random => "Random"

/-- The name of a victim policy in a report. -/
def Placement.VictimPolicy.title : VictimPolicy → String
  | .mostLoadedOldestFirst => "MostLoadedOldestFirst"
  | .newestFirst => "NewestFirst"

namespace Config

/-- Why there is no report. -/
inductive ReportError where
  /-- A declared region has no readable path. -/
  | region (error : Region.Error)
  /-- A node is bound to no readable path. -/
  | node (id : String) (error : Region.Error)
deriving DecidableEq

/-- The error in words. -/
def ReportError.message : ReportError → String
  | .region error => error.message
  | .node id error => "node `" ++ id ++ "`: " ++ error.message

/-- The nodes bound to regions that a tree does not have, in order. -/
def undeclared (t : Region.Tree) : List Node → Except ReportError (List Node)
  | [] => .ok []
  | node :: rest =>
    match t.resolveText node.region with
    | .ok (some _) => undeclared t rest
    | .ok none => (node :: ·) <$> undeclared t rest
    | .error e => .error (.node node.id e)

/-- The line that counts what is declared. -/
def summary (c : Config) (t : Region.Tree) : String :=
  Nat.repr t.size ++ " regions, " ++ Nat.repr c.nodes.length ++ " nodes, policy " ++
    c.placement.policy.title ++ ", victims " ++ c.placement.victims.title ++ "\n"

/-- The line that warns of a node. -/
def warning (node : Node) : String :=
  "warning: node `" ++ node.id ++ "` is bound to undeclared region `" ++ node.region ++ "`\n"

/-- The report on a configuration. -/
def report (c : Config) : Except ReportError String := do
  let t ← c.regionTree.mapError .region
  let strays ← undeclared t c.boundNodes
  return t.outline ++ c.summary t ++ String.join (strays.map warning)

end Config

end FleetControl
