import SchemaModels.Settings.EnumStyle

/-! What a module has to import, and the header that imports it. -/

namespace SchemaModels
set_option autoImplicit false

/-- The names that a piece of module text needs. -/
structure Imports where
  any : Bool := false
  optional : Bool := false
  list : Bool := false
  union : Bool := false
  enum : Bool := false
  field : Bool := false
deriving DecidableEq, Repr

namespace Imports

instance : EmptyCollection Imports := ⟨{}⟩

instance : Union Imports where
  union a b :=
    { any := a.any || b.any
      optional := a.optional || b.optional
      list := a.list || b.list
      union := a.union || b.union
      enum := a.enum || b.enum
      field := a.field || b.field }

/-- The names from `typing`, in the order in which the header lists them. -/
def typingNames (i : Imports) : List String :=
  (if i.any then ["Any"] else []) ++ (if i.optional then ["Optional"] else []) ++
    (if i.list then ["List"] else []) ++ (if i.union then ["Union"] else [])

/-- The lines of the header: enum base, typing names, pydantic names. -/
def headerLines (i : Imports) (style : EnumStyle) : List String :=
  (if i.enum then [style.importLine] else []) ++
    (if i.typingNames.isEmpty then []
      else ["from typing import " ++ ", ".intercalate i.typingNames]) ++
    [if i.field then "from pydantic import BaseModel, Field" else "from pydantic import BaseModel"]

/-- The import header of a module. -/
def header (i : Imports) (style : EnumStyle) : String :=
  "\n".intercalate (i.headerLines style)

end Imports

end SchemaModels
