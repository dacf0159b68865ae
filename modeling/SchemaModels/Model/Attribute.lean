import SchemaModels.Model.TypeHint

/-! Attributes of model classes. A field whose name Python or pydantic keeps for itself gets another
attribute name and carries its own as an alias. -/

namespace SchemaModels
set_option autoImplicit false

namespace Attribute

/-- Keywords of Python. -/
def keywords : List String :=
  ["False", "None", "True", "and", "as", "assert", "async", "await", "break", "class",
    "continue", "def", "del", "elif", "else", "except", "finally", "for", "from", "global", "if",
    "import", "in", "is", "lambda", "nonlocal", "not", "or", "pass", "raise", "return", "try",
    "while", "with", "yield"]

/-- Members of pydantic's base class that a field must not hide. -/
def modelMembers : List String :=
  ["copy"]

/-- Whether a name cannot be the name of an attribute. -/
def isReserved (name : String) : Bool :=
  keywords.contains name || modelMembers.contains name

/-- The attribute name for a reserved name. -/
def aliasedName (name : String) : String :=
  name ++ "_"

end Attribute

/-- The indentation of the lines of a class body. -/
def indent : String := "    "

/-- One attribute: the type at the base of its type hint, its line, and what the line needs. -/
structure Attribute where
  identity : String
  line : String
  imports : Imports
deriving DecidableEq, Repr

namespace Attribute

/-- The line of an attribute with a type hint. -/
def lineFor (name hint : String) : String :=
  if isReserved name then
    indent ++ aliasedName name ++ ": " ++ hint ++ " = Field(None, alias='" ++ name ++ "')"
  else
    indent ++ name ++ ": " ++ hint

/-- The attribute for a field. -/
def ofField (table : ScalarTable) (name : String) (type : TypeExpr) : Attribute :=
  let hint := TypeHint.ofType table type
  { identity := hint.identity
    line := lineFor name hint.text
    imports := hint.imports ∪ { field := isReserved name } }

end Attribute

end SchemaModels
