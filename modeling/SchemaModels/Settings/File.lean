import SchemaModels.Settings
import SchemaModels.Toml.Entry

/-! Settings files: TOML documents with an enum style and a table of scalar targets, and nothing
else. The table may be written under a header, in braces or by dotted keys, in one of these ways
only; its rows come in the order of their names. A moment in place of the table is taken as one of a
single row. -/

namespace SchemaModels
set_option autoImplicit false

structure SettingsFile where
  enumStyle : Option String := none
  /-- Names and targets of scalars, by name. -/
  scalars : List (String × String) := []
deriving DecidableEq, Repr

namespace SettingsFile

/-! ## Reading -/

/-- Adds a row in the order of names; a name can have one row only. -/
def addRow? (name target : String) : List (String × String) → Option (List (String × String))
  | [] => some [(name, target)]
  | (n, t) :: rows =>
    if name < n then some ((name, target) :: (n, t) :: rows)
    else if name = n then none
    else (addRow? name target rows).map ((n, t) :: ·)

def addRows? (file : SettingsFile) (rows : List (String × String)) : Option SettingsFile :=
  (rows.foldlM (fun rows row => addRow? row.1 row.2 rows) file.scalars).map fun rows =>
    { file with scalars := rows }

/-- The name under which a moment stands in the table that it is taken as. -/
def momentName : String := "$__toml_private_datetime"

/-- How far the table of scalars is written. -/
inductive Progress where
  | absent
  /-- By dotted keys, of which more may follow. -/
  | dotted
  /-- In braces, or as a moment. -/
  | complete
  /-- Under its header, to which all that follows belongs. -/
  | underHeader
deriving DecidableEq, Repr

/-- Takes one more entry into a file. -/
def addEntry? (state : SettingsFile × Progress) (entry : Toml.Entry) :
    Option (SettingsFile × Progress) :=
  let (file, progress) := state
  if progress = .underHeader then
    match entry with
    | .assign [name] (.text target) => (file.addRows? [(name, target)]).map (·, .underHeader)
    | _ => none
  else
    match entry with
    | .assign ["enum_style"] (.text style) =>
      if file.enumStyle.isNone then some ({ file with enumStyle := some style }, progress) else none
    | .assign ["scalars", name] (.text target) =>
      if progress = .complete then none
      else (file.addRows? [(name, target)]).map (·, .dotted)
    | .assign ["scalars"] (.table rows) =>
      if progress = .absent then (file.addRows? rows).map (·, .complete) else none
    | .assign ["scalars"] (.moment m) =>
      if progress = .absent then (file.addRows? [(momentName, m.display)]).map (·, .complete)
      else none
    | .header ["scalars"] => if progress = .absent then some (file, .underHeader) else none
    | _ => none

/-- Reads the text of a settings file. -/
def parse? (text : String) : Option SettingsFile := do
  let entries ← Toml.parse? text.toList
  let state ← entries.foldlM addEntry? ({}, .absent)
  return state.1

/-! ## Meaning -/

/-- The settings that a file stands for. -/
def toSettings (file : SettingsFile) : Except SettingError Settings := do
  let style ←
    match file.enumStyle with
    | some name => EnumStyle.parse name
    | none => pure .strEnum
  let rows ← file.scalars.mapM fun row => do return (row.1, ← ScalarTarget.parse row.2)
  return ({ enumStyle := style } : Settings).setScalars rows

end SettingsFile

end SchemaModels
