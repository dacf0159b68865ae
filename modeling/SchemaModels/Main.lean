import SchemaModels.Run

/-! The command on real files. Paths are read before the run is decided, and a file is written only
after it. -/

namespace SchemaModels
set_option autoImplicit false

/-- Why an operation on a file failed. -/
def FileFault.ofError : IO.Error → FileFault
  | .noFileOrDirectory .. => .notFound
  | .inappropriateType _ code _ => if code = 20 then .notDirectory else .isDirectory
  | .invalidArgument (some _) 36 _ => .nameTooLong
  | error => .other (toString error)

/-- What reading a path gives. -/
def readText (path : String) : IO FileText := do
  try
    let content ← IO.FS.readBinFile path
    match String.fromUTF8? content with
    | some text => return .ok text
    | none => return .error .notText
  catch error => return .error (.ofError error)

/-- The paths that a run may read. -/
def Invocation.paths (inv : Invocation) : List String :=
  [inv.config.getD defaultConfig, inv.schema] ++ inv.output.toList

/-- Carries a decision out. -/
def Decision.perform : Decision → IO Outcome
  | .print text => return .success text
  | .upToDate => return .success ""
  | .outOfDate path => return .outOfDate path
  | .write path text => do
    try
      IO.FS.writeFile path text
      return .success ""
    catch error => return .failure (.unwritable path (.ofError error))

/-- Runs the command on real files. -/
def Invocation.perform (inv : Invocation) : IO Outcome := do
  let texts ← inv.paths.mapM fun path => do return (path, ← readText path)
  match inv.decision fun path => (texts.lookup path).getD (.error .notFound) with
  | .error error => return .failure error
  | .ok decision => decision.perform

def usage : String :=
  "Usage: pydgen [OPTIONS] <SCHEMA>\n\n" ++
  "Arguments:\n" ++
  "  <SCHEMA>  GraphQL schema file\n\n" ++
  "Options:\n" ++
  "  -o, --output <OUTPUT>       Output file; prints to stdout when omitted\n" ++
  "  -s, --scalar <NAME=TARGET>  Map a GraphQL scalar to a Python type\n" ++
  "      --enum-style <STYLE>    Enum declaration style: str-enum or str-mixin\n" ++
  "  -c, --config <CONFIG>       Configuration file (defaults to pydgen.toml)\n" ++
  "      --check                 Compare with the output file instead of writing it\n" ++
  "  -v, --verbose...            Increase log verbosity\n" ++
  "  -h, --help                  Print help\n" ++
  "  -V, --version               Print version\n"

end SchemaModels

open SchemaModels

def main (args : List String) : IO UInt32 := do
  match CommandLine.parse args with
  | .error .help =>
    IO.print usage
    return 0
  | .error .version =>
    IO.println "pydgen 0.1.0"
    return 0
  | .error _ =>
    IO.eprint usage
    return 2
  | .ok inv =>
    let outcome ← inv.perform
    IO.print outcome.printed
    if let some message := outcome.message? then IO.eprintln message
    return outcome.exitCode.toUInt32
