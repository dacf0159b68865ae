import SchemaModels.CommandLine
import SchemaModels.FileTree
import SchemaModels.Model.Module
import SchemaModels.Settings.File

/-! Runs of the command. A run reads settings, then the schema, and prints the module, compares it
with the output file or writes it there. All decisions are made before anything is written. -/

namespace SchemaModels
set_option autoImplicit false

/-! ## Settings of a run -/

/-- The settings file that is read when no other is given. -/
def defaultConfig : String := "pydgen.toml"

inductive ConfigError where
  | unreadable (path : String) (fault : FileFault)
  | invalid (path : String)
deriving DecidableEq, Repr

def ConfigError.message : ConfigError → String
  | unreadable path fault => "failed to read " ++ path ++ ": " ++ fault.describe
  | invalid path => "invalid config " ++ path

namespace SettingsFile

/-- Reads the text of a settings file at a path. -/
def ofText (path : String) (text : String) : Except ConfigError SettingsFile :=
  match parse? text with
  | some file => .ok file
  | none => .error (.invalid path)

/-- Reads the settings file at a path. -/
def load (read : String → FileText) (path : String) : Except ConfigError SettingsFile :=
  match read path with
  | .ok text => ofText path text
  | .error fault => .error (.unreadable path fault)

/-- Reads the settings file that is given, or the default one if there is one. -/
def discover (read : String → FileText) (path : Option String) :
    Except ConfigError SettingsFile :=
  match path with
  | some path => load read path
  | none => if (read defaultConfig).isFile then load read defaultConfig else .ok {}

end SettingsFile

/-! ## Errors -/

inductive RunError where
  | config (error : ConfigError)
  | setting (error : SettingError)
  | unreadable (path : String) (fault : FileFault)
  | unparsable (path : String) (error : ParseError)
  | outputIsDirectory (path : String)
  | unwritable (path : String) (fault : FileFault)
deriving DecidableEq, Repr

/-- What went wrong, followed by its causes. A settings file that cannot be read names its cause
itself, before the cause comes on its own. -/
def RunError.message : RunError → String
  | config (.unreadable path fault) =>
    "failed to load configuration: " ++ (ConfigError.unreadable path fault).message ++ ": " ++
      fault.describe
  | config error => "failed to load configuration: " ++ error.message
  | setting error => error.message
  | unreadable path fault => "failed to read " ++ path ++ ": " ++ fault.describe
  | unparsable path error => "failed to parse " ++ path ++ ": " ++ error.message
  | outputIsDirectory path => path ++ " is a directory"
  | unwritable path fault => "failed to write " ++ path ++ ": " ++ fault.describe

/-! ## Decisions -/

/-- What a run comes to before it writes. -/
inductive Decision where
  | print (text : String)
  | upToDate
  | outOfDate (path : String)
  | write (path : String) (text : String)
deriving DecidableEq, Repr

namespace Invocation

/-- The settings of a run: the file's, under those of the command line. -/
def settings (inv : Invocation) (read : String → FileText) : Except RunError Settings := do
  let file ← (SettingsFile.discover read inv.config).mapError .config
  let base ← file.toSettings.mapError .setting
  let rows ← (inv.scalars.mapM ScalarTarget.parseOverride).mapError .setting
  let settings := base.setScalars rows
  match inv.enumStyle with
  | none => return settings
  | some name => return settings.setEnumStyle (← (EnumStyle.parse name).mapError .setting)

/-- The module that a run makes. -/
def moduleText (inv : Invocation) (read : String → FileText) : Except RunError String := do
  let settings ← inv.settings read
  let schema ← (read inv.schema).mapError (.unreadable inv.schema)
  (generate settings schema).mapError (.unparsable inv.schema)

/-- What a run comes to, given what reading paths gives. -/
def decision (inv : Invocation) (read : String → FileText) : Except RunError Decision := do
  let text ← inv.moduleText read
  match inv.output with
  | none => return .print text
  | some path =>
    if inv.check then
      let existing ← (read path).mapError (.unreadable path)
      return if existing = text then .upToDate else .outOfDate path
    else if (read path).isDirectory then throw (.outputIsDirectory path)
    else return .write path text

end Invocation

/-! ## Runs on a tree of files -/

/-- How a run ends. -/
inductive Outcome where
  | success (printed : String)
  | outOfDate (path : String)
  | failure (error : RunError)
deriving DecidableEq, Repr

namespace Outcome

def exitCode : Outcome → Nat
  | success _ => 0
  | failure _ => 1
  | outOfDate _ => 2

/-- What a run prints on the standard output. -/
def printed : Outcome → String
  | success text => text
  | _ => ""

/-- What a run says besides. -/
def message? : Outcome → Option String
  | success _ => none
  | outOfDate path => some (path ++ " is out of date")
  | failure error => some ("error: " ++ error.message)

end Outcome

/-- Runs the command on a tree of files. -/
def Invocation.run (inv : Invocation) (tree : FileTree) : Outcome × FileTree :=
  match inv.decision tree.read with
  | .error error => (.failure error, tree)
  | .ok (.print text) => (.success text, tree)
  | .ok .upToDate => (.success "", tree)
  | .ok (.outOfDate path) => (.outOfDate path, tree)
  | .ok (.write path text) =>
    match tree.write path text with
    | .ok tree => (.success "", tree)
    | .error fault => (.failure (.unwritable path fault), tree)

/-! ## Modules from files -/

inductive FileError where
  | unparsable (error : ParseError)
  | unreadable (fault : FileFault)
deriving DecidableEq, Repr

def FileError.message : FileError → String
  | unparsable error => "schema parse error: " ++ error.message
  | unreadable fault => "IO error: " ++ fault.describe

/-- The module for the schema in a file. -/
def generateFile (settings : Settings) (read : String → FileText) (path : String) :
    Except FileError String :=
  match read path with
  | .error fault => .error (.unreadable fault)
  | .ok schema => (generate settings schema).mapError .unparsable

end SchemaModels
