import SchemaModels.Toml.Moment
import SchemaModels.Toml.Text

/-! Tokens of TOML documents whose values are texts or moments. Spaces and comments separate tokens;
line ends are tokens. A date without a time is a word, as it can be a key too; numbers and other
values come out as words that are no values here. -/

namespace SchemaModels.Toml
set_option autoImplicit false

inductive Token where
  | word (text : String)
  /-- A text on one line. -/
  | line (text : String)
  /-- A text in triple quotes. -/
  | block (text : String)
  /-- A time, with or without a date. -/
  | moment (moment : Moment)
  | dot
  | equals
  | comma
  | bracketOpen
  | bracketClose
  | braceOpen
  | braceClose
  | newline
deriving DecidableEq, Repr

namespace Token

/-- The key that a token is, if it can be one. -/
def key? : Token → Option String
  | word text => some text
  | line text => some text
  | _ => none

/-- The text that a token is, if it is one. -/
def text? : Token → Option String
  | line text => some text
  | block text => some text
  | _ => none

/-- The moment that a token is, if it is one. -/
def moment? : Token → Option Moment
  | word text => Moment.ofDate? text.toList
  | moment m => some m
  | _ => none

def ofChar? : Char → Option Token
  | '.' => some dot
  | '=' => some equals
  | ',' => some comma
  | '[' => some bracketOpen
  | ']' => some bracketClose
  | '\x7b' => some braceOpen
  | '\x7d' => some braceClose
  | '\n' => some newline
  | _ => none

/-- Whether a character can stand in a word. -/
def isWordPart (c : Char) : Bool :=
  c.isAlphanum || c = '_' || c = '-'

/-- Reads one token or gap, and what follows it. -/
def read? : List Char → Option (Option Token × List Char)
  | [] => none
  | '"' :: '"' :: '"' :: cs => (blockText? '"' cs).map fun r => (some (block r.1), r.2)
  | '"' :: cs => (lineText? '"' cs).map fun r => (some (line r.1), r.2)
  | '\x27' :: '\x27' :: '\x27' :: cs =>
    (blockText? '\x27' cs).map fun r => (some (block r.1), r.2)
  | '\x27' :: cs => (lineText? '\x27' cs).map fun r => (some (line r.1), r.2)
  | '\r' :: '\n' :: cs => some (some newline, cs)
  | '#' :: cs =>
    let rest := cs.dropWhile isPlain
    if rest.isEmpty || (lineEnd? rest).isSome then some (none, rest) else none
  | c :: cs =>
    if isSpace c then some (none, cs)
    else
      match Moment.readTimed? (c :: cs) with
      | some (m, rest) => some (some (moment m), rest)
      | none =>
        if isWordPart c then
          some (some (word (String.ofList (c :: cs.takeWhile isWordPart))),
            cs.dropWhile isWordPart)
        else (ofChar? c).map fun t => (some t, cs)

/-- The tokens of a text. -/
def scan? (cs : List Char) : Option (List Token) :=
  if cs.isEmpty then some []
  else
    match read? cs with
    | none => none
    | some (token, rest) =>
      if rest.length < cs.length then
        (scan? rest).map fun tokens => token.toList ++ tokens
      else none
termination_by cs.length

end Token

end SchemaModels.Toml
