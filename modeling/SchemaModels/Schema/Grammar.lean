import SchemaModels.Schema.Document
import SchemaModels.Schema.TokenParser

/-! The grammar of type-system documents. Every optional part is told by its first token. Types and
values are read with a bound on how many levels may still be opened. -/

namespace SchemaModels.Grammar
set_option autoImplicit false

open TokenParser

/-! ## Types and values -/

/-- One layer of a type; `item` reads the items of a list and is missing where no further level may
be opened. -/
def typeLayer (item : Option (TokenParser TypeExpr)) : TokenParser TypeExpr := do
  let type ←
    if ← accept .bracketOpen then
      match item with
      | none => fail .tooDeep
      | some item => do
        let inner ← item
        expect .bracketClose
        pure (TypeExpr.list inner)
    else
      TypeExpr.named <$> TokenParser.name
  if ← accept .bang then return .nonNull type else return type

/-- A type that opens at most `room` levels. -/
def typeExpr : Nat → TokenParser TypeExpr
  | 0, ts => typeLayer none ts
  | room + 1, ts => typeLayer (some (typeExpr room)) ts

/-- A name, a colon and what `part` reads. -/
def entry {α : Type} (part : TokenParser α) : TokenParser (String × α) := do
  let key ← TokenParser.name
  expect .colon
  let value ← part
  return (key, value)

/-- The value that a name by itself denotes. -/
def namedValue (name : String) : Value :=
  if name = "true" then .boolean true
  else if name = "false" then .boolean false
  else if name = "null" then .null
  else .enum name

/-- The value that one token denotes. -/
def tokenValue? : Token → Option Value
  | .int text => some (.int text)
  | .float text => some (.float text)
  | .string value => some (.string value)
  | .blockString value => some (.string value)
  | .name text => some (namedValue text)
  | _ => none

/-- One layer of a value; `item` reads the items of a list or object and is missing where no further
level may be opened. -/
def valueLayer (item : Option (TokenParser Value)) : TokenParser Value := do
  if ← accept .dollar then
    Value.var <$> TokenParser.name
  else if ← accept .bracketOpen then
    match item with
    | none => fail .tooDeep
    | some item => Value.list <$> manyUntil .bracketClose item
  else if ← accept .braceOpen then
    match item with
    | none => fail .tooDeep
    | some item => Value.object <$> manyUntil .braceClose (entry item)
  else
    match (← peek?).bind tokenValue? with
    | some value => do
      skip
      return value
    | none => fail (.expected .value)

/-- A value that opens at most `room` levels. -/
def value : Nat → TokenParser Value
  | 0, ts => valueLayer none ts
  | room + 1, ts => valueLayer (some (value room)) ts

/-! ## Directives, fields and arguments -/

def directive (room : Nat) : TokenParser Directive := do
  let name ← TokenParser.name
  let arguments ← block .parenOpen .parenClose (entry (value room))
  return { name, arguments }

def directives (room : Nat) : TokenParser (List Directive) :=
  manyAfter .atSign (directive room)

def defaultValue (room : Nat) : TokenParser (Option Value) := do
  if ← accept .equals then some <$> value room else return none

def inputValue (room : Nat) : TokenParser InputValue := do
  let description ← string?
  let name ← TokenParser.name
  expect .colon
  let type ← typeExpr room
  let default ← defaultValue room
  let directives ← directives room
  return { name, description, type, default, directives }

def inputValues (room : Nat) (openToken close : Token) : TokenParser (List InputValue) :=
  block openToken close (inputValue room)

def field (room : Nat) : TokenParser Field := do
  let description ← string?
  let name ← TokenParser.name
  let arguments ← inputValues room .parenOpen .parenClose
  expect .colon
  let type ← typeExpr room
  let directives ← directives room
  return { name, description, arguments, type, directives }

def enumValue (room : Nat) : TokenParser EnumValue := do
  let description ← string?
  let name ← TokenParser.name
  let directives ← directives room
  return { name, description, directives }

/-! ## Definitions

Each parser of this section reads what follows the keyword of its kind. -/

def schemaRoot (room : Nat) (description : Option String) : TokenParser SchemaRoot := do
  let directives ← directives room
  let operations ← block .braceOpen .braceClose (entry TokenParser.name)
  return { description, directives, operations }

def scalarType (room : Nat) (description : Option String) : TokenParser ScalarType := do
  let name ← TokenParser.name
  let directives ← directives room
  return { name, description, directives }

def interfaces : TokenParser (List String) := do
  if ← accept (.name "implements") then separated .amp TokenParser.name else return []

def fieldsType (room : Nat) (description : Option String) : TokenParser FieldsType := do
  let name ← TokenParser.name
  let interfaces ← interfaces
  let directives ← directives room
  let fields ← block .braceOpen .braceClose (field room)
  return { name, description, interfaces, directives, fields }

def members : TokenParser (List String) := do
  if ← accept .equals then separated .pipe TokenParser.name else return []

def unionType (room : Nat) (description : Option String) : TokenParser UnionType := do
  let name ← TokenParser.name
  let directives ← directives room
  let members ← members
  return { name, description, directives, members }

def enumType (room : Nat) (description : Option String) : TokenParser EnumType := do
  let name ← TokenParser.name
  let directives ← directives room
  let values ← block .braceOpen .braceClose (enumValue room)
  return { name, description, directives, values }

def inputType (room : Nat) (description : Option String) : TokenParser InputType := do
  let name ← TokenParser.name
  let directives ← directives room
  let fields ← inputValues room .braceOpen .braceClose
  return { name, description, directives, fields }

def directiveType (room : Nat) (description : Option String) : TokenParser DirectiveType := do
  expect .atSign
  let name ← TokenParser.name
  let arguments ← inputValues room .parenOpen .parenClose
  let repeatable ← accept (.name "repeatable")
  expect (.name "on")
  let locations ← separated .pipe TokenParser.name
  return { name, description, arguments, repeatable, locations }

/-- What follows each keyword of the type system. -/
def afterKeyword? (room : Nat) (keyword : String) (description : Option String) :
    Option (TokenParser Definition) :=
  match keyword with
  | "schema" => some (Definition.schema <$> schemaRoot room description)
  | "scalar" => some (Definition.scalar <$> scalarType room description)
  | "type" => some (Definition.object <$> fieldsType room description)
  | "interface" => some (Definition.interface <$> fieldsType room description)
  | "union" => some (Definition.union <$> unionType room description)
  | "enum" => some (Definition.enum <$> enumType room description)
  | "input" => some (Definition.input <$> inputType room description)
  | "directive" => some (Definition.directive <$> directiveType room description)
  | _ => none

/-- The name that the next token is, if it is one. -/
def nameOf? : Option Token → Option String
  | some (.name text) => some text
  | _ => none

def typeSystemDefinition (room : Nat) (description : Option String) : TokenParser Definition := do
  match (nameOf? (← peek?)).bind (afterKeyword? room · description) with
  | some rest => do
    skip
    rest
  | none => fail (.expected .typeSystemDefinition)

/-- Whether a token begins an executable definition. -/
def isExecutable : Token → Bool
  | .braceOpen => true
  | .name text => ["query", "mutation", "subscription", "fragment"].contains text
  | _ => false

/-- A definition, with a description or as an extension, but not both. -/
def definition (room : Nat) : TokenParser Definition := do
  let description ← string?
  match ← peek? with
  | none => fail (.expected .definition)
  | some t =>
    if isExecutable t then fail .executable
    else if t = .name "extend" ∧ description = none then do
      skip
      Definition.extension <$> typeSystemDefinition room none
    else if (nameOf? (some t)).isSome then typeSystemDefinition room description
    else fail (.expected .definition)

/-- The document that a list of tokens spells, with types and values of at most `room` levels. -/
def document (room : Nat) (tokens : List Token) : Except Fault Document :=
  match manyToEnd (definition room) tokens with
  | .ok definitions => .ok ⟨definitions⟩
  | .error fault => .error fault

end SchemaModels.Grammar
