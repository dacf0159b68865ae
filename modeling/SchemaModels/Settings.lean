import SchemaModels.Registry
import SchemaModels.Settings.ScalarTarget
import SchemaModels.Settings.EnumStyle

/-! Settings of a module: targets for scalars, over the built-in ones, and the style of enum
classes. -/

namespace SchemaModels
set_option autoImplicit false

structure Settings where
  scalars : Registry ScalarTarget := .empty
  enumStyle : EnumStyle := .strEnum

namespace Settings

/-- Sets the target of a scalar. -/
def setScalar (s : Settings) (name : String) (target : ScalarTarget) : Settings :=
  { s with scalars := s.scalars.put name target }

/-- Sets the targets of scalars in turn. -/
def setScalars (s : Settings) (rows : List (String × ScalarTarget)) : Settings :=
  { s with scalars := s.scalars.putAll rows }

def setEnumStyle (s : Settings) (style : EnumStyle) : Settings :=
  { s with enumStyle := style }

end Settings

end SchemaModels
