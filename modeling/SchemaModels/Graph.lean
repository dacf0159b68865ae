import SchemaModels.Registry

/-! Graphs of references between named things. Nodes are numbered in order of first mention. An edge
leads from a node to one that should come before it; a strict edge leads to one that must. -/

namespace SchemaModels
set_option autoImplicit false

/-- The edges of one node, to nodes by number, in order of first mention. -/
structure Edges where
  outgoing : List Nat := []
  /-- Those of the outgoing edges that are strict. -/
  strict : List Nat := []
  /-- How many nodes have an edge to this one. -/
  incoming : Nat := 0
deriving DecidableEq, Repr

structure Graph where
  nodes : Registry Edges

namespace Graph

def empty : Graph := ⟨.empty⟩

def size (g : Graph) : Nat :=
  g.nodes.size

def contains (g : Graph) (name : String) : Bool :=
  g.nodes.contains name

/-- Adds a node unless it is there. -/
def addNode (g : Graph) (name : String) : Graph :=
  ⟨g.nodes.offer name {}⟩

/-- The number of a node. -/
def index (g : Graph) (name : String) : Nat :=
  g.nodes.index name

/-- The edges of all nodes by number. -/
def edges (g : Graph) : Array Edges :=
  g.nodes.values.toArray

/-- The name of a node by number. -/
def name (g : Graph) (node : Nat) : String :=
  (g.nodes.names[node]?).getD ""

/-- Whether there is an edge between two nodes. -/
def isConnected (g : Graph) (source target : String) : Bool :=
  ((g.nodes.get? source).getD {}).outgoing.contains (g.index target)

/-- Adds an edge between two nodes that are there, unless it is there. -/
def connect (g : Graph) (source target : String) : Graph :=
  if g.isConnected source target then g
  else
    let number := g.index target
    ⟨(g.nodes.modify source fun e => { e with outgoing := e.outgoing ++ [number] }).modify target
      fun e => { e with incoming := e.incoming + 1 }⟩

/-- Adds an edge, and its two nodes if need be. -/
def addDependency (g : Graph) (source target : String) : Graph :=
  ((g.addNode source).addNode target).connect source target

/-- Adds a strict edge, and its two nodes if need be. -/
def addSupertype (g : Graph) (source target : String) : Graph :=
  let g := g.addDependency source target
  let number := g.index target
  ⟨g.nodes.modify source fun e =>
    if e.strict.contains number then e else { e with strict := e.strict ++ [number] }⟩

/-- The names of the nodes that a node has edges to. -/
def dependencies (g : Graph) (name : String) : List String :=
  match g.nodes.get? name with
  | some e => e.outgoing.map g.name
  | none => []

end Graph

end SchemaModels
