import FleetControl.Region.Tree

/-!
# Views of regions

A view gathers what an operator sees of one region, and the outline of a tree shows all of them,
one line each, indented by depth.
-/

namespace FleetControl.Region

/-- What is to be seen of a region. -/
structure View where
  /-- Its place in the tree. -/
  id : RegionId
  /-- Its name. -/
  name : String
  /-- Its path. -/
  path : Path
  /-- The region around it. -/
  parent : Option RegionId
  /-- The names of the regions directly in it. -/
  children : List String
  /-- Its settings. -/
  settings : Settings
  /-- The properties that count for it. -/
  effectiveProperties : SortedMap String String

namespace Tree

/-- The view of a region. -/
def view? (t : Tree) (id : RegionId) : Option View := do
  let entry ← t.get? id
  let path ← t.path? id
  let effectiveProperties ← (t.effectiveProperties id).toOption
  return {
    id, name := entry.name, path, parent := entry.parent, children := entry.children.keys,
    settings := entry.settings, effectiveProperties }

/-- The views of all regions, each before those in it and children by name. -/
def views (t : Tree) : List View := (t.subtree root).filterMap t.view?

end Tree

/-- The flags of a region in words. -/
def Settings.flags (s : Settings) : List String :=
  (if s.deploymentTarget then ["target"] else []) ++ (if s.cluster then ["cluster"] else []) ++
    (if s.inheritProperties then [] else ["no-inherit"])

/-- The line of the outline for a region. -/
def View.line (v : View) : String :=
  let indent := String.ofList (List.replicate (2 * v.path.depth) ' ')
  let label := if v.parent.isNone then "(root)" else v.name
  let flags := match v.settings.flags with
    | [] => ""
    | flags => " [" ++ ", ".intercalate flags ++ "]"
  let properties := match v.settings.properties.toList with
    | [] => ""
    | ps => " \x7b" ++ ", ".intercalate (ps.map fun (key, value) => key ++ "=" ++ value) ++ "\x7d"
  indent ++ label ++ flags ++ properties ++ "\n"

/-- The outline of a tree, one region a line. -/
def Tree.outline (t : Tree) : String := String.join (t.views.map View.line)

end FleetControl.Region
