import SchemaModels.Settings
import SchemaModels.Schema.Document

/-! The scalars that a module knows and what they become. Built-in scalars come first, then those
that the document defines, as `Any`, then the settings, which win over both. -/

namespace SchemaModels
set_option autoImplicit false

abbrev ScalarTable : Type := Registry ScalarTarget

namespace ScalarTable

/-- The scalars that every schema has. -/
def builtin : ScalarTable :=
  .ofList [("ID", .named "str"), ("String", .named "str"), ("Boolean", .named "bool"),
    ("Int", .named "int"), ("Float", .named "float")]

/-- The built-in table under settings. -/
def ofSettings (overrides : Registry ScalarTarget) : ScalarTable :=
  builtin.putAll overrides.rows

/-- The table of a document under settings. -/
def ofDocument (doc : Document) (overrides : Registry ScalarTarget) : ScalarTable :=
  (doc.scalarNames.foldl (fun table name => table.offer name .any) builtin).putAll overrides.rows

/-- Whether an identity is that of a scalar's target, and so of no declaration. -/
def isPrimitive (table : ScalarTable) (identity : String) : Bool :=
  identity == ScalarTarget.any.identity ||
    table.values.any fun target => target.identity == identity

end ScalarTable

end SchemaModels
