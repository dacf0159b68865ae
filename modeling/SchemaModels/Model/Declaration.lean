import SchemaModels.Model.Attribute
import SchemaModels.Schema.Definition

/-! Declarations of a module: classes for object, interface, input and enum types, and aliases for
unions. A declaration lists the declarations that it should follow, and among them its base
classes, which must come first in any case. -/

namespace SchemaModels
set_option autoImplicit false

structure Declaration where
  identity : String
  text : String
  /-- What the declaration should follow, in order of first mention. -/
  dependencies : List String := []
  /-- The base classes, which are dependencies too. -/
  supertypes : List String := []
deriving DecidableEq, Repr

namespace Declaration

/-- Records something to follow. -/
def dependsOn (d : Declaration) (identity : String) : Declaration :=
  if d.dependencies.contains identity then d
  else { d with dependencies := d.dependencies ++ [identity] }

/-- Records a base class. -/
def inherits (d : Declaration) (identity : String) : Declaration :=
  let d :=
    if d.supertypes.contains identity then d
    else { d with supertypes := d.supertypes ++ [identity] }
  d.dependsOn identity

def isSupertype (d : Declaration) (identity : String) : Bool :=
  d.supertypes.contains identity

/-- A declaration with dependencies and then base classes recorded in turn. -/
def make (identity text : String) (dependencies supertypes : List String) : Declaration :=
  supertypes.foldl inherits (dependencies.foldl dependsOn { identity, text })

/-! ## Text -/

/-- The text of a class; a class without lines has `pass` for its body. -/
def classText (name bases : String) (lines : List String) : String :=
  "class " ++ name ++ "(" ++ bases ++ "):\n" ++
    (if lines.isEmpty then indent ++ "pass" else "\n".intercalate lines)

/-- The base class of models without other bases. -/
def baseModel : String := "BaseModel"

/-- The name of an interface as a base class. -/
def baseName (table : ScalarTable) (interface : String) : String :=
  TypeHint.unquote (TypeHint.stripOptional (TypeHint.named table interface).text)

/-- What a list of parts needs together. -/
def allImports (parts : List Imports) : Imports :=
  parts.foldl (· ∪ ·) ∅

/-! ## Declarations by kind

Each comes with what its text needs. -/

def ofObject (table : ScalarTable) (d : FieldsType) : Declaration × Imports :=
  let bases := d.interfaces.map (baseName table)
  let attributes := d.fields.map fun f => Attribute.ofField table f.name f.type
  let text :=
    classText d.name (if bases.isEmpty then baseModel else ", ".intercalate bases)
      (attributes.map (·.line))
  (make d.name text [] (bases.filter fun base => !table.isPrimitive base),
    allImports (d.interfaces.map (fun i => (TypeHint.named table i).imports) ++
      attributes.map (·.imports)))

def ofInterface (table : ScalarTable) (d : FieldsType) : Declaration × Imports :=
  let attributes := d.fields.map fun f => Attribute.ofField table f.name f.type
  (make d.name (classText d.name baseModel (attributes.map (·.line)))
      ((attributes.map (·.identity)).filter fun identity => !table.isPrimitive identity) [],
    allImports (attributes.map (·.imports)))

def ofInput (table : ScalarTable) (d : InputType) : Declaration × Imports :=
  let attributes := d.fields.map fun f => Attribute.ofField table f.name f.type
  (make d.name (classText d.name baseModel (attributes.map (·.line))) [] [],
    allImports (attributes.map (·.imports)))

/-- The line of an enum value, which stands for its own name. -/
def enumLine (name : String) : String :=
  indent ++ name ++ " = '" ++ name ++ "'"

def ofEnum (style : EnumStyle) (d : EnumType) : Declaration × Imports :=
  (make d.name (classText d.name style.bases (d.values.map fun v => enumLine v.name)) [] [],
    { enum := true })

def ofUnion (table : ScalarTable) (d : UnionType) : Declaration × Imports :=
  let members := d.members.map (TypeHint.named table)
  let text :=
    d.name ++ " = Union[" ++
      ", ".intercalate (members.map fun m => TypeHint.stripOptional m.text) ++ "]"
  (make d.name text
      ((members.map (·.identity)).filter fun identity => !table.isPrimitive identity) [],
    { union := true } ∪ allImports (members.map (·.imports)))

/-- The declaration that a definition gives rise to, if it does. -/
def ofDefinition? (table : ScalarTable) (style : EnumStyle) :
    Definition → Option (Declaration × Imports)
  | .object d => some (ofObject table d)
  | .interface d => some (ofInterface table d)
  | .input d => some (ofInput table d)
  | .enum d => some (ofEnum style d)
  | .union d => some (ofUnion table d)
  | .schema _ => none
  | .scalar _ => none
  | .directive _ => none
  | .extension _ => none

end Declaration

end SchemaModels
