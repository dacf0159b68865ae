/-! Type expressions: a name, a list of a type, or a type that excludes null. -/

namespace SchemaModels
set_option autoImplicit false

inductive TypeExpr where
  | named (name : String)
  | list (item : TypeExpr)
  | nonNull (inner : TypeExpr)
deriving DecidableEq, Repr

namespace TypeExpr

/-- The name inside all layers. -/
def baseName : TypeExpr → String
  | named name => name
  | list item => item.baseName
  | nonNull inner => inner.baseName

end TypeExpr

end SchemaModels
