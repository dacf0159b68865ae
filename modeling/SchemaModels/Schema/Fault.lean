import SchemaModels.Lexeme

/-! Why a schema is refused. A fault says what went wrong and which tokens were still unread there;
a refusal is the same for readers of the source, with the text found and its position. -/

namespace SchemaModels
set_option autoImplicit false

/-! ## Faults among tokens -/

/-- What the grammar asks for at some place. -/
inductive Expectation where
  | name
  | value
  | definition
  | typeSystemDefinition
  | token (t : Token)
deriving DecidableEq, Repr

def Expectation.describe : Expectation → String
  | name => "a name"
  | value => "a value"
  | definition => "a definition"
  | typeSystemDefinition => "a type-system definition"
  | token t => "'" ++ t.display ++ "'"

inductive Cause where
  /-- The next token is not what the grammar asks for. -/
  | expected (what : Expectation)
  /-- The next token begins an executable definition. -/
  | executable
  /-- The token just read opens more levels than are allowed. -/
  | tooDeep
deriving DecidableEq, Repr

/-- A cause, and the tokens that were unread when it arose. -/
structure Fault where
  cause : Cause
  unread : List Token
deriving DecidableEq, Repr

/-! ## Refusals of a source text -/

/-- How many lists and objects of a type or value may stand inside each other. -/
def maxNesting : Nat := 128

inductive ParseError where
  | unexpectedCharacter (text : String) (position : Position)
  | unexpectedToken (expected : Expectation) (found : String) (position : Position)
  | unexpectedEnd (expected : Expectation)
  | unsupportedDefinition (keyword : String) (position : Position)
  | nestingTooDeep (position : Position)
deriving DecidableEq, Repr

namespace ParseError

def message : ParseError → String
  | unexpectedCharacter text position =>
    "unexpected character '" ++ text ++ "' at " ++ position.display
  | unexpectedToken expected found position =>
    "expected " ++ expected.describe ++ ", found '" ++ found ++ "' at " ++ position.display
  | unexpectedEnd expected => "unexpected end of input, expected " ++ expected.describe
  | unsupportedDefinition keyword position =>
    "unsupported definition '" ++ keyword ++ "' at " ++ position.display ++
      ": only type-system definitions are allowed"
  | nestingTooDeep position =>
    "nesting deeper than " ++ toString maxNesting ++ " levels at " ++ position.display

/-- Where the source is wrong; an early end has no place of its own. -/
def position? : ParseError → Option Position
  | unexpectedCharacter _ position => some position
  | unexpectedToken _ _ position => some position
  | unexpectedEnd _ => none
  | unsupportedDefinition _ position => some position
  | nestingTooDeep position => some position

/-- The refusal of a piece of text that makes no token. -/
def ofUnreadable (source : List Char) (u : Unreadable) : ParseError :=
  unexpectedCharacter u.text (Position.ofOffset source u.offset)

/-- The refusal for a fault among the tokens of a source. The first unread lexeme is where the
fault is reported; without one it is reported at the end. -/
def ofFault (source : List Char) (lexemes : List Lexeme) (fault : Fault) : ParseError :=
  let unread := lexemes.drop (lexemes.length - fault.unread.length)
  match unread, fault.cause with
  | [], .expected what => unexpectedEnd what
  | [], .executable => unexpectedEnd .definition
  | [], .tooDeep => nestingTooDeep (Position.ofOffset source (byteLength source))
  | l :: _, .expected what => unexpectedToken what l.text (Position.ofOffset source l.start)
  | l :: _, .executable => unsupportedDefinition l.text (Position.ofOffset source l.start)
  | l :: _, .tooDeep => nestingTooDeep (Position.ofOffset source l.start)

end ParseError

end SchemaModels
