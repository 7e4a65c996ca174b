/-!
# Region paths

A region is named by the dotted path from the root to it: `eu.west.rack1`. A path is a list of
segments, each non-empty and without a dot; the empty list is the root.

* `Path.parse` reads a path and says what is wrong with a text that is none;
* `Path.toString` writes it;
* `Path.contains` is the prefix order and `Path.prefixes` the regions passed on the way down.
-/

namespace FleetControl.Region

/-- What keeps a text from being a path. -/
inductive PathFault where
  | leadingDot
  | trailingDot
  | emptySegment
  | compoundChild
deriving DecidableEq, Inhabited

/-- The fault in words. -/
def PathFault.message : PathFault → String
  | .leadingDot => "leading dot"
  | .trailingDot => "trailing dot"
  | .emptySegment => "empty segment"
  | .compoundChild => "child name must be a single non-empty segment"

/-- Why a region cannot be reached. -/
inductive Error where
  /-- A text is not a path. -/
  | invalidPath (path : String) (fault : PathFault)
  /-- There is no such region. -/
  | notFound (region : String)
deriving DecidableEq, Inhabited

/-- The error in words. -/
def Error.message : Error → String
  | .invalidPath path fault => "invalid region path `" ++ path ++ "`: " ++ fault.message
  | .notFound region => "region not found: " ++ region

/-- A segment is neither empty nor does it hold a dot. -/
def isSegment (s : String) : Bool := !s.toList.isEmpty && !s.toList.contains '.'

/-- A path from the root of the region tree. -/
structure Path where
  /-- The names on the way down. -/
  segments : List String
  /-- Every name is a segment. -/
  proper : segments.all isSegment = true
deriving DecidableEq

namespace Path

/-- The path of the root region. -/
def root : Path := ⟨[], rfl⟩

instance : Inhabited Path := ⟨root⟩

/-- The path with the given segments, if they are segments. -/
def ofSegments? (segments : List String) : Option Path :=
  if h : segments.all isSegment = true then some ⟨segments, h⟩ else none

/-- The segments joined by dots. -/
def toString (p : Path) : String :=
  String.ofList (List.intercalate ['.'] (p.segments.map String.toList))

instance : ToString Path := ⟨toString⟩

/-- Read a path. The empty text is the root. -/
def parse (text : String) : Except Error Path :=
  let chars := text.toList
  if chars = [] then .ok root
  else if chars.head? = some '.' then .error (.invalidPath text .leadingDot)
  else if chars.getLast? = some '.' then .error (.invalidPath text .trailingDot)
  else match ofSegments? ((chars.splitOn '.').map String.ofList) with
    | some p => .ok p
    | none => .error (.invalidPath text .emptySegment)

/-- The root has no segments. -/
def isRoot (p : Path) : Bool := p.segments.isEmpty

/-- Number of segments. -/
def depth (p : Path) : Nat := p.segments.length

/-- The path of the first `n` segments. -/
def take (p : Path) (n : Nat) : Path :=
  ⟨p.segments.take n, by
    have := p.proper
    simp only [List.all_eq_true] at this ⊢
    exact fun s hs => this s (List.mem_of_mem_take hs)⟩

/-- The path without its last segment; the root has no parent. -/
def parent? (p : Path) : Option Path :=
  if p.isRoot then none else some (p.take (p.depth - 1))

/-- The path one segment further down. -/
def child (p : Path) (name : String) : Except Error Path :=
  if h : isSegment name = true then
    .ok ⟨p.segments ++ [name], by simp [p.proper, h]⟩
  else .error (.invalidPath (p.toString ++ "." ++ name) .compoundChild)

/-- The other region lies in this one or is this one. -/
def contains (p q : Path) : Bool := p.segments.isPrefixOf q.segments

/-- The paths passed from the root down to this one, without the root and with this one. -/
def prefixes (p : Path) : List Path := (List.range p.depth).map fun n => p.take (n + 1)

/-! ### Order -/

/-- Paths are ordered segment by segment. -/
instance : Ord Path := ⟨fun p q => compare p.segments q.segments⟩

theorem compare_def (p q : Path) : compare p q = compare p.segments q.segments := rfl

theorem ext_segments {p q : Path} (h : p.segments = q.segments) : p = q := by
  cases p; cases q; simp_all

instance : Std.TransOrd Path where
  eq_swap := by
    intro p q
    simp only [compare_def]
    exact Std.OrientedOrd.eq_swap
  isLE_trans := by
    intro p q r hpq hqr
    simp only [compare_def] at *
    exact Std.TransCmp.isLE_trans hpq hqr

instance : Std.LawfulEqOrd Path where
  compare_self := by
    intro p
    simp only [compare_def]
    exact Std.ReflCmp.compare_self
  eq_of_compare := by
    intro p q h
    exact ext_segments (Std.LawfulEqCmp.eq_of_compare h)

end Path

end FleetControl.Region
