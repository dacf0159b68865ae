import SchemaModels.Schema.TypeExpr
import SchemaModels.Schema.Value

/-! Definitions of a schema. Every definition keeps its contents in source order; a type that has
no name of its own in the source, the schema root, has none here. -/

namespace SchemaModels
set_option autoImplicit false

/-! ## Parts -/

/-- An argument of a field or directive, or a field of an input type. -/
structure InputValue where
  name : String
  description : Option String := none
  type : TypeExpr
  default : Option Value := none
  directives : List Directive := []
deriving Repr

/-- A field of an object or interface type. -/
structure Field where
  name : String
  description : Option String := none
  arguments : List InputValue := []
  type : TypeExpr
  directives : List Directive := []
deriving Repr

/-- A value of an enum type. -/
structure EnumValue where
  name : String
  description : Option String := none
  directives : List Directive := []
deriving Repr

/-! ## Definitions by kind -/

/-- The root operations, as pairs of an operation and the type that serves it. -/
structure SchemaRoot where
  description : Option String := none
  directives : List Directive := []
  operations : List (String × String) := []
deriving Repr

structure ScalarType where
  name : String
  description : Option String := none
  directives : List Directive := []
deriving Repr

/-- An object or interface type. -/
structure FieldsType where
  name : String
  description : Option String := none
  interfaces : List String := []
  directives : List Directive := []
  fields : List Field := []
deriving Repr

structure UnionType where
  name : String
  description : Option String := none
  directives : List Directive := []
  members : List String := []
deriving Repr

structure EnumType where
  name : String
  description : Option String := none
  directives : List Directive := []
  values : List EnumValue := []
deriving Repr

structure InputType where
  name : String
  description : Option String := none
  directives : List Directive := []
  fields : List InputValue := []
deriving Repr

structure DirectiveType where
  name : String
  description : Option String := none
  arguments : List InputValue := []
  repeatable : Bool := false
  locations : List String := []
deriving Repr

inductive Definition where
  | schema (root : SchemaRoot)
  | scalar (type : ScalarType)
  | object (type : FieldsType)
  | interface (type : FieldsType)
  | union (type : UnionType)
  | enum (type : EnumType)
  | input (type : InputType)
  | directive (type : DirectiveType)
  | extension (of : Definition)
deriving Repr

namespace Definition

/-- The keyword that introduces a definition. -/
def keyword : Definition → String
  | schema _ => "schema"
  | scalar _ => "scalar"
  | object _ => "type"
  | interface _ => "interface"
  | union _ => "union"
  | enum _ => "enum"
  | input _ => "input"
  | directive _ => "directive"
  | extension _ => "extend"

/-- The name of what is defined or extended; the schema root has none. -/
def name? : Definition → Option String
  | schema _ => none
  | scalar d => some d.name
  | object d => some d.name
  | interface d => some d.name
  | union d => some d.name
  | enum d => some d.name
  | input d => some d.name
  | directive d => some d.name
  | extension d => d.name?

def isExtension : Definition → Bool
  | extension _ => true
  | _ => false

end Definition

end SchemaModels
