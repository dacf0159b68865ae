/-! The command line: a schema to read, and options. A short option may carry its value attached and
share a dash with flags before it; a long one may carry it after an equals sign. A separate value
must not look like an option. Two dashes end the options. -/

namespace SchemaModels
set_option autoImplicit false

/-- What one run is asked to do. -/
structure Invocation where
  schema : String
  output : Option String := none
  scalars : List String := []
  enumStyle : Option String := none
  config : Option String := none
  check : Bool := false
  verbosity : Nat := 0
deriving DecidableEq, Repr

namespace CommandLine

/-! ## Options -/

/-- Options that take a value. -/
inductive Valued where
  | output
  | scalar
  | enumStyle
  | config
deriving DecidableEq, Repr

/-- Options that take none. -/
inductive Flag where
  | check
  | verbose
  | help
  | version
deriving DecidableEq, Repr

/-- An option of either sort. -/
inductive Switch where
  | valued (option : Valued)
  | flag (option : Flag)
deriving DecidableEq, Repr

def ofLong? : String → Option Switch
  | "output" => some (.valued .output)
  | "scalar" => some (.valued .scalar)
  | "enum-style" => some (.valued .enumStyle)
  | "config" => some (.valued .config)
  | "check" => some (.flag .check)
  | "verbose" => some (.flag .verbose)
  | "help" => some (.flag .help)
  | "version" => some (.flag .version)
  | _ => none

def ofShort? : Char → Option Switch
  | 'o' => some (.valued .output)
  | 's' => some (.valued .scalar)
  | 'c' => some (.valued .config)
  | 'v' => some (.flag .verbose)
  | 'h' => some (.flag .help)
  | 'V' => some (.flag .version)
  | _ => none

/-! ## Collected arguments -/

/-- Why no run starts. -/
inductive Refusal where
  | help
  | version
  | unknownOption (text : String)
  | missingValue (option : String)
  | unexpectedValue (option : String)
  | repeated (option : String)
  | extraArgument (text : String)
  | missingSchema
  | checkWithoutOutput
deriving DecidableEq, Repr

/-- What the arguments read so far ask for. -/
structure Collected where
  schema : Option String := none
  output : Option String := none
  scalars : List String := []
  enumStyle : Option String := none
  config : Option String := none
  check : Bool := false
  verbosity : Nat := 0
deriving DecidableEq, Repr

namespace Collected

/-- A value that may be given once. -/
def once (name : String) (old : Option String) (value : String) : Except Refusal (Option String) :=
  if old.isSome then .error (.repeated name)
  else .ok (some value)

/-- A path that may be given once and not be empty. -/
def oncePath (name : String) (old : Option String) (value : String) :
    Except Refusal (Option String) :=
  if value = "" then .error (.missingValue name) else once name old value

def addValue (c : Collected) (option : Valued) (value : String) : Except Refusal Collected :=
  match option with
  | .output => (oncePath "output" c.output value).map fun v => { c with output := v }
  | .config => (oncePath "config" c.config value).map fun v => { c with config := v }
  | .enumStyle => (once "enum-style" c.enumStyle value).map fun v => { c with enumStyle := v }
  | .scalar => .ok { c with scalars := c.scalars ++ [value] }

def addFlag (c : Collected) : Flag → Except Refusal Collected
  | .check => if c.check then .error (.repeated "check") else .ok { c with check := true }
  | .verbose => .ok { c with verbosity := c.verbosity + 1 }
  | .help => .error .help
  | .version => .error .version

def addArgument (c : Collected) (text : String) : Except Refusal Collected :=
  if c.schema.isSome then .error (.extraArgument text)
  else (oncePath "schema" c.schema text).map fun v => { c with schema := v }

/-- The run that complete arguments ask for. -/
def finish (c : Collected) : Except Refusal Invocation :=
  match c.schema with
  | none => .error .missingSchema
  | some schema =>
    if c.check && c.output.isNone then .error .checkWithoutOutput
    else
      .ok { schema, output := c.output, scalars := c.scalars, enumStyle := c.enumStyle,
            config := c.config, check := c.check, verbosity := c.verbosity }

end Collected

/-! ## Reading arguments -/

/-- Where the reading stands after an argument. -/
inductive Step where
  | next (c : Collected)
  /-- The next argument is the value of an option. -/
  | awaiting (c : Collected) (option : Valued) (name : String)

/-- Reads a long option, given without its dashes. -/
def readLong (c : Collected) (text : List Char) : Except Refusal Step :=
  let name := String.ofList (text.takeWhile (· ≠ '='))
  match ofLong? name, text.dropWhile (· ≠ '=') with
  | none, _ => .error (.unknownOption name)
  | some (.flag f), [] => (c.addFlag f).map .next
  | some (.flag _), _ :: _ => .error (.unexpectedValue name)
  | some (.valued o), [] => .ok (.awaiting c o name)
  | some (.valued o), _ :: value => (c.addValue o (String.ofList value)).map .next

/-- Drops one equals sign. -/
def dropEquals : List Char → List Char
  | '=' :: cs => cs
  | cs => cs

/-- Reads the letters of short options. -/
def readShort (c : Collected) : List Char → Except Refusal Step
  | [] => .ok (.next c)
  | letter :: rest =>
    match ofShort? letter with
    | none => .error (.unknownOption (String.singleton letter))
    | some (.flag f) =>
      match c.addFlag f with
      | .ok c => readShort c rest
      | .error refusal => .error refusal
    | some (.valued o) =>
      if rest.isEmpty then .ok (.awaiting c o (String.singleton letter))
      else (c.addValue o (String.ofList (dropEquals rest))).map .next

/-- Reads an argument that is no awaited value. -/
def readArgument (c : Collected) (text : String) : Except Refusal Step :=
  match text.toList with
  | '-' :: '-' :: rest => readLong c rest
  | '-' :: letter :: rest => readShort c (letter :: rest)
  | _ => (c.addArgument text).map .next

/-- Whether an argument looks like an option; a lone dash does not. -/
def looksLikeOption (text : String) : Bool :=
  match text.toList with
  | '-' :: _ :: _ => true
  | _ => false

/-- Reads arguments after those collected. -/
def readAll : Step → List String → Except Refusal Invocation
  | .next c, [] => c.finish
  | .awaiting _ _ name, [] => .error (.missingValue name)
  | .next c, text :: texts =>
    if text = "--" then
      match texts.foldlM Collected.addArgument c with
      | .ok c => c.finish
      | .error refusal => .error refusal
    else
      match readArgument c text with
      | .ok step => readAll step texts
      | .error refusal => .error refusal
  | .awaiting c option name, text :: texts =>
    if looksLikeOption text then .error (.missingValue name)
    else
      match c.addValue option text with
      | .ok c => readAll (.next c) texts
      | .error refusal => .error refusal

/-- The run that the arguments of a command ask for. -/
def parse (args : List String) : Except Refusal Invocation :=
  readAll (.next {}) args

end CommandLine

end SchemaModels
