import SchemaModels.Schema.Definition

/-! Documents: the definitions of a schema in source order. -/

namespace SchemaModels
set_option autoImplicit false

structure Document where
  definitions : List Definition
deriving Repr

namespace Document

def isEmpty (doc : Document) : Bool :=
  doc.definitions.isEmpty

/-- The first definition under a name, extensions left out. -/
def find? (doc : Document) (name : String) : Option Definition :=
  doc.definitions.find? fun d => !d.isExtension && d.name? == some name

/-- The names of the scalar types that a document defines. -/
def scalarNames (doc : Document) : List String :=
  doc.definitions.filterMap fun
    | .scalar d => some d.name
    | _ => none

def hasExtensions (doc : Document) : Bool :=
  doc.definitions.any Definition.isExtension

end Document

end SchemaModels
