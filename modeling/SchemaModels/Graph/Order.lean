import SchemaModels.Graph
import SchemaModels.Graph.Search

/-! The order in which the nodes of a graph come. Nodes that reach each other form a component and
stay together, and a component comes after those that it leads to. Inside a component nodes keep
their numbers' order, except that a node waits for the targets of its strict edges. -/

namespace SchemaModels
set_option autoImplicit false

/-! ## Inside a component -/

/-- Whether none of a node's strict targets is among the waiting nodes, itself apart. -/
def isReady (strict : Nat → List Nat) (waiting : List Nat) (node : Nat) : Bool :=
  (strict node).all fun target => target == node || !waiting.contains target

/-- Takes the first ready node again and again; where none is ready, the first one. -/
def arrange (strict : Nat → List Nat) (waiting : List Nat) : List Nat :=
  match waiting with
  | [] => []
  | node :: rest =>
    let chosen := ((node :: rest).find? (isReady strict (node :: rest))).getD node
    chosen :: arrange strict ((node :: rest).erase chosen)
termination_by waiting.length
decreasing_by
  have hmem : ((node :: rest).find? (isReady strict (node :: rest))).getD node ∈ node :: rest := by
    cases h : (node :: rest).find? (isReady strict (node :: rest)) with
    | none => exact List.mem_cons_self
    | some m => exact List.mem_of_find?_eq_some h
  rw [List.length_erase_of_mem hmem]
  exact Nat.lt_succ_self _

/-! ## The whole graph -/

namespace Edges

/-- The nodes that a node has edges to. -/
def next (table : Array Edges) (node : Nat) : List Nat :=
  (table[node]?.getD {}).outgoing

/-- The nodes that a node has strict edges to. -/
def strictNext (table : Array Edges) (node : Nat) : List Nat :=
  (table[node]?.getD {}).strict

/-- Where the search starts: nodes that nothing leads to, then all nodes, each by number. -/
def starts (table : Array Edges) : List Nat :=
  (List.range table.size).filter (fun node => (table[node]?.getD {}).incoming == 0) ++
    List.range table.size

/-- The search for components from all starts along the edges. -/
def search (table : Array Edges) : Search :=
  (starts table).foldl (Search.connect (next table) (arrange (strictNext table))) (Search.fresh table.size)

/-- All nodes in the order in which they come. -/
def order (table : Array Edges) : List Nat :=
  (search table).order

end Edges

/-- The names of all nodes in the order in which they come. -/
def Graph.order (g : Graph) : List String :=
  (Edges.order g.edges).map g.name

end SchemaModels
