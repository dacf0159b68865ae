/-! Settings that make no sense. -/

namespace SchemaModels
set_option autoImplicit false

/-- What is wrong with the setting of a scalar. -/
inductive ScalarFault where
  | noTarget
  | emptyName
  | emptyTarget
deriving DecidableEq, Repr

def ScalarFault.describe : ScalarFault → String
  | noTarget => "expected NAME=TARGET"
  | emptyName => "empty scalar name"
  | emptyTarget => "empty target type"

inductive SettingError where
  | invalidScalar (entry : String) (fault : ScalarFault)
  | unknownEnumStyle (name : String)
deriving DecidableEq, Repr

def SettingError.message : SettingError → String
  | invalidScalar entry fault => "invalid scalar override '" ++ entry ++ "': " ++ fault.describe
  | unknownEnumStyle name =>
    "unknown enum style '" ++ name ++ "', expected 'str-enum' or 'str-mixin'"

end SchemaModels
