import FleetControl.Region.Path
import FleetControl.SortedMap

/-!
# The region tree

Regions are kept in a list in the order of their creation and named by their place in it; the
root comes first. A region knows its name, its parent, its children by name and its settings.
Regions are only ever added.

* `Tree.resolve` looks a path up and `Tree.create` adds what is missing on the way;
* `Tree.path?` finds the path of a region by climbing to the root;
* `Tree.subtree` lists a region and all below it, children by name;
* `Tree.effectiveProperties` lays properties over inherited ones.
-/

namespace FleetControl.Region

/-- What can be set on a region. -/
structure Settings where
  /-- The region's own properties. -/
  properties : SortedMap String String := .empty
  /-- Whether the properties of the parent count here too. -/
  inheritProperties : Bool := true
  /-- Whether deployments to an enclosing region go here. -/
  deploymentTarget : Bool := false
  /-- Whether the nodes in this region are admitted together or not at all. -/
  cluster : Bool := false
deriving DecidableEq, Inhabited

/-- A region declared by its path. -/
structure Declaration where
  /-- Dotted path of the region. -/
  path : String
  /-- Its settings. -/
  settings : Settings := {}
deriving DecidableEq, Inhabited

/-- The settings of a declaration laid over those a region has: properties are added, flags are
replaced. -/
def Declaration.over (d : Declaration) (s : Settings) : Settings :=
  { d.settings with properties := s.properties.overlay d.settings.properties.toList }

/-- The place of a region in its tree. -/
abbrev RegionId := Nat

/-- A region of a tree. -/
structure Entry where
  /-- The last segment of its path; empty for the root. -/
  name : String
  /-- The region around it; none for the root. -/
  parent : Option RegionId := none
  /-- Its settings. -/
  settings : Settings := {}
  /-- The regions directly in it, by name. -/
  children : SortedMap String RegionId := .empty
deriving DecidableEq, Inhabited

/-- A tree of regions in the order of their creation. -/
structure Tree where
  /-- The regions. -/
  entries : List Entry
deriving DecidableEq

namespace Tree

/-- The tree of the root alone. -/
def new : Tree := ⟨[{ name := "" }]⟩

instance : Inhabited Tree := ⟨new⟩

/-- The id of the root. -/
def root : RegionId := 0

variable (t : Tree)

/-- Number of regions, with the root. -/
def size : Nat := t.entries.length

/-- The region with an id. -/
def get? (id : RegionId) : Option Entry := t.entries[id]?

/-! ### Looking up and creating -/

/-- The child of a region with a name. -/
def child? (id : RegionId) (name : String) : Option RegionId :=
  (t.get? id).bind fun entry => entry.children.get? name

/-- The region at a path. -/
def resolve (p : Path) : Option RegionId := p.segments.foldlM t.child? root

/-- The region at a path given as text. -/
def resolveText (text : String) : Except Error (Option RegionId) := do
  let p ← Path.parse text
  return t.resolve p

/-- The region at a path given as text, which must exist. -/
def resolveStrict (text : String) : Except Error RegionId := do
  match ← t.resolveText text with
  | some id => return id
  | none => throw (.notFound text)

/-- Replace the region with an id. -/
def set (id : RegionId) (entry : Entry) : Tree := ⟨t.entries.set id entry⟩

/-- Change the region with an id. -/
def modify (id : RegionId) (f : Entry → Entry) : Tree :=
  match t.get? id with
  | some entry => t.set id (f entry)
  | none => t

/-- Add a region below another, last in the order of creation. -/
def addChild (parent : RegionId) (name : String) : Tree :=
  let id := t.size
  let grown := t.modify parent fun entry =>
    { entry with children := entry.children.insert name id }
  ⟨grown.entries ++ [{ name, parent := some parent }]⟩

/-- The child of a region with a name, added if it is missing. -/
def ensureChild (here : Tree × RegionId) (name : String) : Tree × RegionId :=
  match here.1.child? here.2 name with
  | some id => (here.1, id)
  | none => (here.1.addChild here.2 name, here.1.size)

/-- The tree with every region on a path added that was missing, and the region at the path. -/
def create (p : Path) : Tree × RegionId := p.segments.foldl ensureChild (t, root)

/-- The same for a path given as text; a text that is no path changes nothing. -/
def createText (text : String) : Except Error (Tree × RegionId) := do
  let p ← Path.parse text
  return t.create p

/-! ### Settings -/

/-- Change the settings of a region. -/
def updateSettings (id : RegionId) (f : Settings → Settings) : Except Error Tree :=
  match t.get? id with
  | some entry => .ok (t.set id { entry with settings := f entry.settings })
  | none => .error (.notFound ("#" ++ Nat.repr id))

/-- The settings of a region. -/
def settings? (id : RegionId) : Option Settings := (t.get? id).map (·.settings)

/-- Whether a region is a cluster. -/
def isCluster (id : RegionId) : Bool := (t.settings? id).any (·.cluster)

/-- Whether a region is a deployment target. -/
def isDeploymentTarget (id : RegionId) : Bool := (t.settings? id).any (·.deploymentTarget)

/-- Create a declared region and give it its settings. -/
def declare (d : Declaration) : Except Error Tree := do
  let (grown, id) ← t.createText d.path
  grown.updateSettings id d.over

/-- Declare regions one after the other. At a text that is no path the tree so far stands. -/
def apply : Tree → List Declaration → Tree × Except Error Unit
  | t, [] => (t, .ok ())
  | t, d :: rest =>
    match t.declare d with
    | .ok t => apply t rest
    | .error e => (t, .error e)

/-- The tree of a list of declarations. -/
def ofDeclarations (ds : List Declaration) : Except Error Tree :=
  match new.apply ds with
  | (t, .ok ()) => .ok t
  | (_, .error e) => .error e

/-! ### Structure -/

/-- The name of a region. -/
def name? (id : RegionId) : Option String := (t.get? id).map (·.name)

/-- The region around a region. -/
def parent? (id : RegionId) : Option RegionId := (t.get? id).bind (·.parent)

/-- The regions directly in a region, by name. -/
def children (id : RegionId) : List RegionId :=
  match t.get? id with
  | some entry => entry.children.values
  | none => []

/-- A region and the regions around it, from the inside out, in at most `fuel` steps. -/
def climb : Nat → RegionId → List RegionId
  | 0, _ => []
  | fuel + 1, id =>
    match t.get? id with
    | none => []
    | some entry => id :: (entry.parent.elim [] (climb fuel))

/-- A region and the regions around it, from the inside out. A parent is older than its
children, so `id + 1` steps reach the root. -/
def lineage (id : RegionId) : List RegionId := t.climb (id + 1) id

/-- The regions around a region, from the inside out. -/
def ancestors (id : RegionId) : List RegionId := (t.lineage id).tail

/-- The path of a region. -/
def path? (id : RegionId) : Option Path :=
  (t.get? id).bind fun _ =>
    Path.ofSegments? ((t.lineage id).reverse.tail.filterMap t.name?)

/-- A region and every region in it, children by name, at most `fuel` levels deep. -/
def descend : Nat → RegionId → List RegionId
  | 0, _ => []
  | fuel + 1, id => id :: (t.children id).flatMap (descend fuel)

/-- A region and every region in it, each before those in it and children by name. No way down
is longer than the tree has regions. -/
def subtree (id : RegionId) : List RegionId :=
  match t.get? id with
  | some _ => t.descend t.size id
  | none => []

/-! ### Properties -/

/-- The settings that count for a region, from the inside out, up to the first region that does
not inherit, in at most `fuel` steps. -/
def inheritance : Nat → RegionId → List Settings
  | 0, _ => []
  | fuel + 1, id =>
    match t.get? id with
    | none => []
    | some entry =>
      entry.settings ::
        (if entry.settings.inheritProperties then entry.parent.elim [] (inheritance fuel) else [])

/-- The properties that count for a region: its own over those it inherits. -/
def effectiveProperties (id : RegionId) : Except Error (SortedMap String String) :=
  match t.get? id with
  | some _ => .ok <|
      (t.inheritance (id + 1) id).reverse.foldl
        (fun acc s => acc.overlay s.properties.toList) .empty
  | none => .error (.notFound ("#" ++ Nat.repr id))

end Tree

end FleetControl.Region
