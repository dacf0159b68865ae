import SchemaModels.Schema.Fault

/-! Parsers over tokens. A parser looks at the next token only: it takes tokens from the front and
gives a value with the unread tokens, or a fault. -/

namespace SchemaModels
set_option autoImplicit false

/-- A parser of values of a type. -/
def TokenParser (α : Type) : Type :=
  List Token → Except Fault (α × List Token)

namespace TokenParser

variable {α β : Type}

instance : Monad TokenParser where
  pure a := fun ts => .ok (a, ts)
  bind p f := fun ts =>
    match p ts with
    | .ok (a, rest) => f a rest
    | .error fault => .error fault

theorem bind_apply (p : TokenParser α) (f : α → TokenParser β) (ts : List Token) :
    (p >>= f) ts =
      match p ts with
      | .ok (a, rest) => f a rest
      | .error fault => .error fault := rfl

theorem map_apply (f : α → β) (p : TokenParser α) (ts : List Token) :
    (f <$> p) ts =
      match p ts with
      | .ok (a, rest) => .ok (f a, rest)
      | .error fault => .error fault := rfl

/-- Stops at the next token. -/
def fail (cause : Cause) : TokenParser α :=
  fun ts => .error ⟨cause, ts⟩

/-! ## Single tokens -/

/-- The next token, which stays unread. -/
def peek? : TokenParser (Option Token) :=
  fun ts => .ok (ts.head?, ts)

/-- Passes over the next token. -/
def skip : TokenParser Unit :=
  fun ts => .ok ((), ts.tail)

/-- Takes a token if it is next, and says whether it was. -/
def accept (t : Token) : TokenParser Bool :=
  fun ts => if ts.head? = some t then .ok (true, ts.tail) else .ok (false, ts)

/-- Takes a token that must be next. -/
def expect (t : Token) : TokenParser Unit :=
  fun ts =>
    if ts.head? = some t then .ok ((), ts.tail) else .error ⟨.expected (.token t), ts⟩

/-- Takes a name. -/
def name : TokenParser String
  | .name text :: ts => .ok (text, ts)
  | ts => .error ⟨.expected .name, ts⟩

/-- Takes a string of either form if one is next. -/
def string? : TokenParser (Option String)
  | [] => .ok (none, [])
  | t :: ts =>
    match t.stringValue? with
    | some value => .ok (some value, ts)
    | none => .ok (none, t :: ts)

/-! ## Repetition

A part takes at least one token, so there are never more parts than tokens. Each repetition counts
its parts against the tokens that it started with. -/

/-- At most one part for each token of a list, up to a closing token, which is taken too. -/
def manyUntilFrom (close : Token) (part : TokenParser α) :
    List Token → List Token → Except Fault (List α × List Token)
  | bound, ts =>
    if ts.head? = some close then .ok ([], ts.tail)
    else
      match part ts with
      | .error fault => .error fault
      | .ok (a, rest) =>
        match bound with
        | [] => .ok ([a], rest)
        | _ :: bound =>
          match manyUntilFrom close part bound rest with
          | .ok (as, rest) => .ok (a :: as, rest)
          | .error fault => .error fault

/-- Parts up to a closing token, which is taken too. -/
def manyUntil (close : Token) (part : TokenParser α) : TokenParser (List α) :=
  fun ts => manyUntilFrom close part ts ts

/-- At most one part for each token of a list, as long as a mark stands before it. -/
def manyAfterFrom (mark : Token) (part : TokenParser α) :
    List Token → List Token → Except Fault (List α × List Token)
  | [], ts => .ok ([], ts)
  | _ :: bound, ts =>
    if ts.head? = some mark then
      match part ts.tail with
      | .error fault => .error fault
      | .ok (a, rest) =>
        match manyAfterFrom mark part bound rest with
        | .ok (as, rest) => .ok (a :: as, rest)
        | .error fault => .error fault
    else .ok ([], ts)

/-- Parts that each follow a mark. -/
def manyAfter (mark : Token) (part : TokenParser α) : TokenParser (List α) :=
  fun ts => manyAfterFrom mark part ts ts

/-- At most one part for each token of a list, until no token is left. -/
def manyToEndFrom (part : TokenParser α) : List Token → List Token → Except Fault (List α)
  | _, [] => .ok []
  | [], _ :: _ => .ok []
  | _ :: bound, t :: ts =>
    match part (t :: ts) with
    | .error fault => .error fault
    | .ok (a, rest) =>
      match manyToEndFrom part bound rest with
      | .ok as => .ok (a :: as)
      | .error fault => .error fault

/-- Parts until no token is left. -/
def manyToEnd (part : TokenParser α) (ts : List Token) : Except Fault (List α) :=
  manyToEndFrom part ts ts

/-- Parts in brackets, none if the opening bracket is not next. -/
def block (openToken close : Token) (part : TokenParser α) : TokenParser (List α) := do
  if ← accept openToken then manyUntil close part else return []

/-- One or more parts with a mark between; a mark may stand before the first. -/
def separated (mark : Token) (part : TokenParser α) : TokenParser (List α) := do
  let _ ← accept mark
  let first ← part
  let others ← manyAfter mark part
  return first :: others

end TokenParser

end SchemaModels
