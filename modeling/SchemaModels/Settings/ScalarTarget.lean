import SchemaModels.Text.Blank
import SchemaModels.Settings.SettingError

/-! What a scalar becomes in Python: a named type, or `Any`. -/

namespace SchemaModels
set_option autoImplicit false

inductive ScalarTarget where
  | named (text : String)
  | any
deriving DecidableEq, Repr

namespace ScalarTarget

/-- The name under which a target is known, which is also how it is written. -/
def identity : ScalarTarget → String
  | named text => text
  | any => "Any"

/-- The target that a trimmed text names; an empty text names none. -/
def ofTrimmed? (text : String) : Option ScalarTarget :=
  if text = "" then none
  else if text = "any" ∨ text = "Any" then some any
  else some (named text)

/-- Reads a target; blanks around it do not count. -/
def parse (text : String) : Except SettingError ScalarTarget :=
  match ofTrimmed? (Text.trim text) with
  | some target => .ok target
  | none => .error (.invalidScalar text .emptyTarget)

/-- Reads a setting of the form `NAME=TARGET`, cut at its first equals sign. -/
def parseOverride (entry : String) : Except SettingError (String × ScalarTarget) :=
  let cs := entry.toList
  match cs.dropWhile (· ≠ '=') with
  | [] => .error (.invalidScalar entry .noTarget)
  | _ :: right =>
    let name := String.ofList (Text.trimmed (cs.takeWhile (· ≠ '=')))
    if name = "" then .error (.invalidScalar entry .emptyName)
    else
      match ofTrimmed? (String.ofList (Text.trimmed right)) with
      | some target => .ok (name, target)
      | none => .error (.invalidScalar entry .emptyTarget)

end ScalarTarget

end SchemaModels
