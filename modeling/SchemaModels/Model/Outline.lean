import SchemaModels.Graph.Order
import SchemaModels.Model.Declaration

/-! Outlines of a module: its declarations, the first one under each identity, and the text in which
they come in the order of their references. -/

namespace SchemaModels
set_option autoImplicit false

structure Outline where
  declarations : Registry Declaration

namespace Outline

def empty : Outline := ⟨.empty⟩

def size (o : Outline) : Nat :=
  o.declarations.size

/-- Adds a declaration unless its identity is taken. -/
def add (o : Outline) (d : Declaration) : Outline :=
  ⟨o.declarations.offer d.identity d⟩

def ofList (ds : List Declaration) : Outline :=
  ds.foldl add empty

/-- Adds the edges of a declaration to what it should follow. -/
def addReferences (g : Graph) (d : Declaration) : Graph :=
  d.dependencies.foldl
    (fun g target =>
      if d.isSupertype target then g.addSupertype d.identity target
      else g.addDependency d.identity target)
    g

/-- The references between declarations; all identities are numbered before others are mentioned. -/
def graph (o : Outline) : Graph :=
  o.declarations.values.foldl addReferences (o.declarations.names.foldl Graph.addNode .empty)

/-- The declarations in the order in which they come. -/
def ordered (o : Outline) : List Declaration :=
  o.graph.order.filterMap o.declarations.get?

/-- What stands between declarations, and between the header and the first. -/
def separator : String := "\n\n\n"

/-- The declarations' text. -/
def body (o : Outline) : String :=
  separator.intercalate (o.ordered.map (·.text))

/-- The text of the module under a header. -/
def moduleText (o : Outline) (header : String) : String :=
  header ++ separator ++ o.body ++ "\n"

end Outline

end SchemaModels
