/-! Constant values, and the uses of directives that carry them. Numbers keep their spelling, and
the entries of an object keep their order and repetitions. -/

namespace SchemaModels
set_option autoImplicit false

inductive Value where
  | var (name : String)
  | int (text : String)
  | float (text : String)
  | string (value : String)
  | boolean (value : Bool)
  | null
  | enum (name : String)
  | list (items : List Value)
  | object (entries : List (String × Value))
deriving Repr

/-- A use of a directive. -/
structure Directive where
  name : String
  arguments : List (String × Value) := []
deriving Repr

namespace Directive

/-- The first argument under a name. -/
def argument? (d : Directive) (name : String) : Option Value :=
  d.arguments.lookup name

end Directive

end SchemaModels
