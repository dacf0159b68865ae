import SchemaModels.Text.Quoted

/-! Tokens of the schema language. Numbers keep their spelling; strings carry the text they stand
for. -/

namespace SchemaModels
set_option autoImplicit false

inductive Token where
  | braceOpen
  | braceClose
  | parenOpen
  | parenClose
  | bracketOpen
  | bracketClose
  | colon
  | bang
  | equals
  | atSign
  | pipe
  | amp
  | dollar
  | spread
  | name (text : String)
  | int (text : String)
  | float (text : String)
  | string (value : String)
  | blockString (value : String)
deriving DecidableEq, Repr

namespace Token

/-- The punctuator that one character makes by itself. -/
def ofChar? : Char → Option Token
  | '\x7b' => some .braceOpen
  | '\x7d' => some .braceClose
  | '(' => some .parenOpen
  | ')' => some .parenClose
  | '[' => some .bracketOpen
  | ']' => some .bracketClose
  | ':' => some .colon
  | '!' => some .bang
  | '=' => some .equals
  | '@' => some .atSign
  | '|' => some .pipe
  | '&' => some .amp
  | '$' => some .dollar
  | _ => none

/-- A token as messages show it; of a block string, only that it is one. -/
def display : Token → String
  | braceOpen => "\x7b"
  | braceClose => "\x7d"
  | parenOpen => "("
  | parenClose => ")"
  | bracketOpen => "["
  | bracketClose => "]"
  | colon => ":"
  | bang => "!"
  | equals => "="
  | atSign => "@"
  | pipe => "|"
  | amp => "&"
  | dollar => "$"
  | spread => "..."
  | name text => text
  | int text => text
  | float text => text
  | string value => Text.quoted value
  | blockString _ => "\"\"\"...\"\"\""

/-- The text that a string token stands for. -/
def stringValue? : Token → Option String
  | string value => some value
  | blockString value => some value
  | _ => none

/-- Whether a token is a string of either form. -/
def isString (t : Token) : Bool :=
  t.stringValue?.isSome

end Token

/-! ## Character classes of names and numbers -/

/-- Whether a character can start a name. -/
def isNameStart (c : Char) : Bool :=
  c = '_' || c.isAlpha

/-- Whether a character can stand inside a name. -/
def isNamePart (c : Char) : Bool :=
  isNameStart c || c.isDigit

end SchemaModels
