import EntityQuery.Expr.Basic

/-!
# Navigation forests

A forest has one tree for every row source of a query. The root of a tree is the row itself; a
child is reached by following a navigation, or it is a field of a row that was built as a record.
A node that is present can be read from the current row of its source: where, is not stored but
follows from the place that the node was given when it became present and from the pair records
that joins have put around the row since then. A node that is removed, with all below it, is no
longer part of its tree, but keeps its key.
-/

namespace EntityQuery

structure Node where
  source : SourceId
  parent : Option NodeId
  /-- The navigation that leads here; roots and record fields have none. -/
  edge : Option NavigationEdge
  /-- The entity type of the rows; rows that are plain records have none. -/
  entity : Option String
  /-- The record field that leads here. -/
  field : Option String
  children : List NodeId
  isOptional : Bool
  isPresent : Bool
  isRemoved : Bool
  /-- Member paths under which the node's rows are known. -/
  aliases : List (List String)
  /-- Where the rows were in the current row when the node became present. -/
  place : List String
  /-- How many times the row had been wrapped by then. -/
  wrapsBefore : Nat
  deriving DecidableEq, Repr, Inhabited

namespace Node

def isCollection (n : Node) : Bool := n.edge.any (·.isCollection)

def isRoot (n : Node) : Bool := n.parent.isNone

/-- The member that leads from the parent to this node. -/
def step? (n : Node) : Option String :=
  match n.edge with
  | some edge => some edge.name
  | none => n.field

end Node

/-- A row source: the root of its tree and, in the order in which it happened, the paths that joins
have put in front of its rows. -/
structure RowSource where
  entity : Option String
  root : NodeId
  wraps : List (List String)
  deriving DecidableEq, Repr, Inhabited

structure Forest where
  nodes : List Node
  sources : List RowSource
  deriving DecidableEq, Repr, Inhabited

namespace Forest

def empty : Forest := ⟨[], []⟩

def node (f : Forest) (n : NodeId) : Node := f.nodes.getD n.index default

def source (f : Forest) (s : SourceId) : RowSource := f.sources.getD s.index default

def root (f : Forest) (s : SourceId) : NodeId := (f.source s).root

def size (f : Forest) : Nat := f.nodes.length

/-- Changes one node. -/
def modifyNode (f : Forest) (n : NodeId) (change : Node → Node) : Forest :=
  { f with nodes := f.nodes.modify n.index change }

/-- Changes one source. -/
def modifySource (f : Forest) (s : SourceId) (change : RowSource → RowSource) : Forest :=
  { f with sources := f.sources.modify s.index change }

/-- A new node, at the end of its parent's children if it has a parent. -/
def addNode (f : Forest) (n : Node) : NodeId × Forest :=
  let id : NodeId := ⟨f.nodes.length⟩
  let f : Forest := { f with nodes := f.nodes ++ [n] }
  match n.parent with
  | none => (id, f)
  | some parent => (id, f.modifyNode parent fun p => { p with children := p.children ++ [id] })

/-- A new source. Its root is the whole row, which is present from the start. -/
def addSource (f : Forest) (entity : Option String) (isOptional : Bool) : SourceId × Forest :=
  let id : SourceId := ⟨f.sources.length⟩
  let (root, f) := f.addNode {
    source := id, parent := none, edge := none, entity, field := none, children := [], isOptional
    isPresent := true, isRemoved := false, aliases := [[]], place := [], wrapsBefore := 0 }
  (id, { f with sources := f.sources ++ [⟨entity, root, []⟩] })

/-- The child that a member leads to. -/
def child? (f : Forest) (parent : NodeId) (step : String) : Option NodeId :=
  (f.node parent).children.find? fun c => (f.node c).step? == some step

/-- The nodes from a node up to its root. A parent is always older than its children. -/
def lineage (f : Forest) (n : NodeId) : List NodeId :=
  n :: match (f.node n).parent with
  | none => []
  | some parent => if parent.index < n.index then f.lineage parent else []
termination_by n.index

/-- The number of steps from the root. -/
def depth (f : Forest) (n : NodeId) : Nat := (f.lineage n).length - 1

/-- The members that lead from the root to a node. -/
def memberPath (f : Forest) (n : NodeId) : List String :=
  ((f.lineage n).filterMap fun m => (f.node m).step?).reverse

/-- The child that a navigation leads to, added if it is not there yet. -/
def follow (f : Forest) (parent : NodeId) (edge : NavigationEdge) : NodeId × Forest :=
  match f.child? parent edge.name with
  | some child => (child, f)
  | none =>
    let p := f.node parent
    f.addNode {
      source := p.source, parent := some parent, edge := some edge, entity := some edge.target
      field := none, children := [], isOptional := p.isOptional || edge.isOptional
      isPresent := false, isRemoved := false
      aliases := [f.memberPath parent ++ [edge.name]], place := [], wrapsBefore := 0 }

/-- A field of a record row, which is present where the field is. -/
def addField (f : Forest) (parent : NodeId) (field : String) (entity : Option String)
    (isOptional : Bool) : NodeId × Forest :=
  let p := f.node parent
  f.addNode {
    source := p.source, parent := some parent, edge := none, entity, field := some field
    children := [], isOptional := isOptional || p.isOptional, isPresent := true, isRemoved := false
    aliases := [[field]], place := [field], wrapsBefore := (f.source p.source).wraps.length }

/-- Notes one more member path under which a node's rows are known. -/
def addAlias (f : Forest) (n : NodeId) (path : List String) : Forest :=
  f.modifyNode n fun m =>
    if path ∈ m.aliases then m else { m with aliases := m.aliases ++ [path] }

/-- A node and all nodes below it, removed or not, to a depth of at most `fuel`. -/
def subtreeWithin (f : Forest) : Nat → NodeId → List NodeId
  | 0, _ => []
  | fuel + 1, n => n :: (f.node n).children.flatMap (f.subtreeWithin fuel)

/-- A node and all nodes below it, removed or not. -/
def subtree (f : Forest) (n : NodeId) : List NodeId := f.subtreeWithin f.size n

/-- Takes a node, and with it all below it, out of its tree. -/
def remove (f : Forest) (n : NodeId) : Forest :=
  let detached := match (f.node n).parent with
    | none => f
    | some parent =>
      f.modifyNode parent fun p => { p with children := p.children.filter (· ≠ n) }
  (f.subtree n).foldl (fun f m => f.modifyNode m fun x => { x with isRemoved := true }) detached

/-- The nodes of a tree that are not removed, parents before children, to a depth of at most
`fuel`. -/
def liveWithin (f : Forest) : Nat → NodeId → List NodeId
  | 0, _ => []
  | fuel + 1, n =>
    if (f.node n).isRemoved then []
    else n :: (f.node n).children.flatMap (f.liveWithin fuel)

/-- A node and all nodes below it that are not removed, parents before children. -/
def live (f : Forest) (n : NodeId) : List NodeId := f.liveWithin f.size n

/-- A join has put `path` in front of the rows of a source. -/
def wrap (f : Forest) (path : List String) (s : SourceId) : Forest :=
  f.modifySource s fun x => { x with wraps := x.wraps ++ [path] }

/-- The rows of a node can be read at `place` of the current row from now on. -/
def makePresent (f : Forest) (n : NodeId) (place : List String) : Forest :=
  let wrapsBefore := (f.source (f.node n).source).wraps.length
  f.modifyNode n fun x => { x with isPresent := true, place, wrapsBefore }

/-- From now on the rows of a source can be missing, and with them those of all its nodes. -/
def makeOptional (f : Forest) (s : SourceId) : Forest :=
  { f with nodes := f.nodes.map fun n =>
      if n.source = s then { n with isOptional := true } else n }

/-- Where the rows of a node are in the current row, if they are there at all. -/
def rowPath? (f : Forest) (n : NodeId) : Option (List String) :=
  let x := f.node n
  if x.isPresent && !x.isRemoved then
    some (((f.source x.source).wraps.drop x.wrapsBefore).foldl (fun path w => w ++ path) x.place)
  else none

/-- The node that a member path leads to from the root of a source. -/
def nodeAt? (f : Forest) (s : SourceId) (path : List String) : Option NodeId :=
  path.foldlM f.child? (f.root s)

/-- The reference to the rows of a node. -/
def ref (f : Forest) (n : NodeId) : Expr :=
  .rowRef ⟨(f.node n).source, n, f.memberPath n⟩

/-- One line per node of a source, indented by depth. -/
def outline (f : Forest) (s : SourceId) : String :=
  "\n".intercalate <| (f.live (f.root s)).map fun n =>
    let x := f.node n
    let place := match f.rowPath? n with
      | none => "<unexpanded>"
      | some [] => "<row>"
      | some path => ".".intercalate path
    String.ofList (List.replicate (2 * f.depth n) ' ') ++ x.step?.getD "<root>" ++ " [" ++
      x.entity.getD "record" ++ (if x.isOptional then ", optional" else "") ++ "] -> " ++ place

end Forest

end EntityQuery
