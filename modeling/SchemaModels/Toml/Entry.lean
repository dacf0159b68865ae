import SchemaModels.Text.ByteOrderMark
import SchemaModels.Toml.Token

/-! The lines of a TOML document: assignments to keys, and the headers of the tables to which the
assignments after them belong. A value is a text, a moment or a table of texts in braces. -/

namespace SchemaModels.Toml
set_option autoImplicit false

inductive Value where
  | text (text : String)
  | moment (moment : Moment)
  | table (rows : List (String × String))
deriving DecidableEq, Repr

inductive Entry where
  | assign (path : List String) (value : Value)
  | header (path : List String)
deriving DecidableEq, Repr

/-- Reads keys with dots between. -/
def path? : List Token → Option (List String × List Token)
  | key :: .dot :: ts => do
    let k ← key.key?
    let r ← path? ts
    return (k :: r.1, r.2)
  | key :: ts => key.key?.map fun k => ([k], ts)
  | [] => none

/-- What a table in braces asks for next. -/
inductive RowState where
  | key
  | equals (key : String)
  | value (key : String)
  | comma
deriving DecidableEq, Repr

/-- Reads the rows of a table after its opening brace. Line ends may stand anywhere between its
tokens, and a comma may follow the last row. -/
def rows? : RowState → List Token → Option (List (String × String) × List Token)
  | _, [] => none
  | state, .newline :: ts => rows? state ts
  | .key, .braceClose :: ts => some ([], ts)
  | .key, t :: ts => t.key?.bind fun k => rows? (.equals k) ts
  | .equals k, .equals :: ts => rows? (.value k) ts
  | .value k, t :: ts => do
    let v ← t.text?
    let r ← rows? .comma ts
    return ((k, v) :: r.1, r.2)
  | .comma, .comma :: ts => rows? .key ts
  | .comma, .braceClose :: ts => some ([], ts)
  | _, _ => none

def value? : List Token → Option (Value × List Token)
  | .braceOpen :: ts => (rows? .key ts).map fun r => (.table r.1, r.2)
  | t :: ts =>
    match t.text? with
    | some text => some (.text text, ts)
    | none => t.moment?.map fun m => (.moment m, ts)
  | [] => none

/-- Reads an assignment or header. -/
def entry? : List Token → Option (Entry × List Token)
  | .bracketOpen :: ts => do
    match ← path? ts with
    | (path, .bracketClose :: ts) => return (.header path, ts)
    | _ => none
  | ts => do
    match ← path? ts with
    | (path, .equals :: ts) => do
      let r ← value? ts
      return (.assign path r.1, r.2)
    | _ => none

/-- Reads entries, at most one on a line. -/
def entries? (ts : List Token) : Option (List Entry) :=
  match ts with
  | [] => some []
  | .newline :: ts => entries? ts
  | t :: ts =>
    match entry? (t :: ts) with
    | some (e, []) => some [e]
    | some (e, .newline :: rest) =>
      if rest.length < ts.length then (entries? rest).map (e :: ·) else none
    | _ => none
termination_by ts.length

/-- The entries of a document; a byte order mark at the start is passed over. -/
def parse? (text : List Char) : Option (List Entry) :=
  (Token.scan? (Text.dropByteOrderMark text)).bind entries?

end SchemaModels.Toml
