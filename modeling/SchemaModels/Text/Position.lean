/-! Places in a text. Offsets count UTF-8 bytes from the start; lines and columns count from one,
columns in characters, and a line ends at a line feed only. -/

namespace SchemaModels
set_option autoImplicit false

structure Position where
  line : Nat
  column : Nat
deriving DecidableEq, Repr

namespace Position

/-- Where every text starts. -/
def start : Position := ⟨1, 1⟩

/-- The position after reading one character. -/
def next (p : Position) (c : Char) : Position :=
  if c = '\n' then ⟨p.line + 1, 1⟩ else ⟨p.line, p.column + 1⟩

/-- The position after the characters that end within the first `offset` bytes. -/
def advance (p : Position) : List Char → Nat → Position
  | [], _ => p
  | c :: cs, offset =>
    if c.utf8Size ≤ offset then (p.next c).advance cs (offset - c.utf8Size) else p

/-- The position of a byte offset; an offset beyond the end stands for the end. -/
def ofOffset (source : List Char) (offset : Nat) : Position :=
  start.advance source offset

/-- Whether an offset lies between two characters, or at or beyond the end. -/
def isBoundary : List Char → Nat → Bool
  | _, 0 => true
  | [], _ => true
  | c :: cs, offset => c.utf8Size ≤ offset && isBoundary cs (offset - c.utf8Size)

/-- A position as line and column with a colon between. -/
def display (p : Position) : String :=
  toString p.line ++ ":" ++ toString p.column

end Position

/-- The number of bytes that characters take in UTF-8. -/
def byteLength (cs : List Char) : Nat :=
  cs.foldr (fun c n => c.utf8Size + n) 0

end SchemaModels
