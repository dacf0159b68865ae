/-! A depth-first search for the components of a graph, the classes of nodes that reach each other.

The search numbers nodes as it enters them and keeps those whose component is not complete on a stack. The
lowlink of a node is the least number on the stack that was found from it or from what was entered below
it. A node that is left with its own number for lowlink was the first of its component to be entered, and
the component is what stands on the stack from that node on. The calls under way are kept in a list: a node
for each, with the number of edges that were followed from it. -/

namespace SchemaModels
set_option autoImplicit false

/-- What a search has found. -/
structure Search where
  nextIndex : Nat
  /-- The numbers of the nodes entered. -/
  index : Array (Option Nat)
  lowlink : Array Nat
  onStack : Array Bool
  /-- The nodes entered whose component is not complete, last one first. -/
  stack : List Nat
  /-- The nodes of the components that are. -/
  order : List Nat
deriving DecidableEq, Repr

namespace Search

/-- Nothing entered, among some number of nodes. -/
def fresh (size : Nat) : Search where
  nextIndex := 0
  index := Array.replicate size none
  lowlink := Array.replicate size 0
  onStack := Array.replicate size false
  stack := []
  order := []

/-- The number of a node, if it was entered. -/
def number? (s : Search) (node : Nat) : Option Nat :=
  s.index[node]?.getD none

def low (s : Search) (node : Nat) : Nat :=
  s.lowlink[node]?.getD 0

def isOpen (s : Search) (node : Nat) : Bool :=
  s.onStack[node]?.getD false

/-- Numbers a node and puts it on the stack. -/
def enter (s : Search) (node : Nat) : Search :=
  { s with
    nextIndex := s.nextIndex + 1
    index := s.index.setIfInBounds node (some s.nextIndex)
    lowlink := s.lowlink.setIfInBounds node s.nextIndex
    onStack := s.onStack.setIfInBounds node true
    stack := node :: s.stack }

/-- Lowers the lowlink of a node to a number that was found from it. -/
def lower (s : Search) (node number : Nat) : Search :=
  { s with lowlink := s.lowlink.setIfInBounds node (min (s.low node) number) }

/-- Takes nodes off a stack down to a root: what was taken, last one first, and what is left. -/
def popTo (root : Nat) : List Nat → List Nat × List Nat
  | [] => ([], [])
  | node :: below =>
    if node = root then ([node], below)
    else (node :: (popTo root below).1, (popTo root below).2)

/-- Takes the component of a root off the stack and puts its members, which go by their numbers in the graph,
behind the order as `emit` arranges them. -/
def close (emit : List Nat → List Nat) (s : Search) (root : Nat) : Search :=
  let popped := popTo root s.stack
  { s with
    onStack := popped.1.foldl (fun flags node => flags.setIfInBounds node false) s.onStack
    stack := popped.2
    order := s.order ++ emit popped.1.mergeSort }

/-! ## Steps -/

/-- Follows an edge to a node entered before, which counts as long as it is on the stack. -/
def look (s : Search) (node child number : Nat) : Search :=
  if s.isOpen child then s.lower node number else s

/-- What was found from a node was found from its caller. -/
def report (s : Search) (node : Nat) : List (Nat × Nat) → Search
  | [] => s
  | (caller, _) :: _ => s.lower caller (s.low node)

/-- Leaves a node all of whose edges were followed, and closes its component if it is the root. -/
def leave (emit : List Nat → List Nat) (s : Search) (node : Nat) (callers : List (Nat × Nat)) : Search :=
  let s := s.report node callers
  if s.number? node = some (s.low node) then s.close emit node else s

/-- The steps that a search can still spend on the nodes below a bound that it has not entered: one for each
edge and one to leave. -/
def stepsBelow (next : Nat → List Nat) (index : Array (Option Nat)) : Nat → Nat
  | 0 => 0
  | node + 1 =>
    stepsBelow next index node + if index[node]? = some none then (next node).length + 1 else 0

/-- The steps that are left to calls under way. -/
def stepsOf (next : Nat → List Nat) : List (Nat × Nat) → Nat
  | [] => 0
  | (node, position) :: callers => (next node).length - position + 1 + stepsOf next callers

theorem stepsBelow_set (next : Nat → List Nat) {index : Array (Option Nat)} {node : Nat} (number : Nat)
    (h : index[node]? = some none) (bound : Nat) :
    stepsBelow next (index.setIfInBounds node (some number)) bound +
        (if node < bound then (next node).length + 1 else 0) = stepsBelow next index bound := by
  induction bound with
  | zero => rfl
  | succ bound ih =>
    rw [stepsBelow, stepsBelow, ← ih, Array.getElem?_setIfInBounds]
    by_cases hsame : node = bound
    · rw [← hsame, if_pos rfl, if_pos (Array.getElem?_eq_some_iff.mp h).1, if_pos h]
      simp
    · have hlt : node < bound + 1 ↔ node < bound := by omega
      rw [if_neg hsame]
      simp only [hlt]
      omega

theorem index_look (s : Search) (node child number : Nat) : (s.look node child number).index = s.index := by
  unfold look
  split <;> rfl

theorem index_report (s : Search) (node : Nat) (callers : List (Nat × Nat)) :
    (s.report node callers).index = s.index := by
  cases callers <;> rfl

theorem index_leave (emit : List Nat → List Nat) (s : Search) (node : Nat) (callers : List (Nat × Nat)) :
    (s.leave emit node callers).index = s.index := by
  unfold leave
  dsimp only
  split <;> exact s.index_report node callers

/-- Goes on with the calls under way, the last one first, until none is left. -/
def follow (next : Nat → List Nat) (emit : List Nat → List Nat) (s : Search) (calls : List (Nat × Nat)) : Search :=
  match calls with
  | [] => s
  | (node, position) :: callers =>
    if hposition : position < (next node).length then
      match hchild : s.index[(next node)[position]]? with
      | some none =>
        follow next emit (s.enter (next node)[position]) (((next node)[position], 0) :: (node, position + 1) :: callers)
      | some (some number) =>
        follow next emit (s.look node (next node)[position] number) ((node, position + 1) :: callers)
      -- a number without a node has nothing to enter
      | none => follow next emit s ((node, position + 1) :: callers)
    else follow next emit (s.leave emit node callers) callers
termination_by stepsBelow next s.index s.index.size + stepsOf next calls
decreasing_by
  · have hsteps := stepsBelow_set next s.nextIndex hchild s.index.size
    rw [if_pos (Array.getElem?_eq_some_iff.mp hchild).1] at hsteps
    simp only [enter, Array.size_setIfInBounds, stepsOf]
    omega
  · rw [index_look]
    simp only [stepsOf]
    omega
  · simp only [stepsOf]
    omega
  · rw [index_leave]
    simp only [stepsOf]
    omega

/-- Searches from a node, unless it was entered. -/
def connect (next : Nat → List Nat) (emit : List Nat → List Nat) (s : Search) (node : Nat) : Search :=
  if s.index[node]? = some none then follow next emit (s.enter node) [(node, 0)] else s

end Search

end SchemaModels
