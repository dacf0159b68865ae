import SchemaModels.Settings.SettingError

/-! How enum classes are declared: on `StrEnum`, or on `str` with `Enum`. -/

namespace SchemaModels
set_option autoImplicit false

inductive EnumStyle where
  | strEnum
  | strMixin
deriving DecidableEq, Repr

namespace EnumStyle

/-- The base classes of an enum class. -/
def bases : EnumStyle → String
  | strEnum => "StrEnum"
  | strMixin => "str, Enum"

/-- The line that imports the base class. -/
def importLine : EnumStyle → String
  | strEnum => "from enum import StrEnum"
  | strMixin => "from enum import Enum"

/-- Reads a style by its name or by its base classes. -/
def parse (name : String) : Except SettingError EnumStyle :=
  if name = "str-enum" ∨ name = "StrEnum" then .ok strEnum
  else if name = "str-mixin" ∨ name = "str, Enum" then .ok strMixin
  else .error (.unknownEnumStyle name)

end EnumStyle

end SchemaModels
