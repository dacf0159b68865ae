/-! String literals between single double quotes. The body is a run of units: a character that is
no quote, backslash or line end, or a backslash with any character but a line feed. Which
backslash units are escapes, and what they stand for, is decided when the body is decoded. -/

namespace SchemaModels.StringLiteral
set_option autoImplicit false

/-- Splits off the complete units at the start of a text. -/
def body : List Char → List Char × List Char
  | [] => ([], [])
  | '\\' :: c :: cs =>
    if c = '\n' then ([], '\\' :: c :: cs)
    else
      let r := body cs
      ('\\' :: c :: r.1, r.2)
  | c :: cs =>
    if c = '"' ∨ c = '\\' ∨ c = '\n' ∨ c = '\r' then ([], c :: cs)
    else
      let r := body cs
      (c :: r.1, r.2)

theorem body_append (cs : List Char) : (body cs).1 ++ (body cs).2 = cs := by
  fun_induction body cs <;> simp_all +zetaDelta

/-! ## Escapes -/

/-- The character that a backslash and one letter stand for. -/
def simpleEscape? : Char → Option Char
  | '"' => some '"'
  | '\\' => some '\\'
  | '/' => some '/'
  | 'b' => some '\x08'
  | 'f' => some '\x0c'
  | 'n' => some '\n'
  | 'r' => some '\r'
  | 't' => some '\t'
  | _ => none

/-- The value of a hexadecimal digit. -/
def hexDigit? (c : Char) : Option Nat :=
  if c.isDigit then some (c.toNat - '0'.toNat)
  else if 'a' ≤ c ∧ c ≤ 'f' then some (c.toNat - 'a'.toNat + 10)
  else if 'A' ≤ c ∧ c ≤ 'F' then some (c.toNat - 'A'.toNat + 10)
  else none

/-- The number that a run of hexadecimal digits denotes. -/
def hexNumber? (cs : List Char) : Option Nat :=
  cs.foldlM (fun n c => (hexDigit? c).map (n * 16 + ·)) 0

/-- The number that the four characters of a numbered escape denote. The first may be a plus sign
in place of a digit. -/
def codePoint? (a b c d : Char) : Option Nat :=
  if a = '+' then hexNumber? [b, c, d] else hexNumber? [a, b, c, d]

/-- The character with a code point; surrogates have none. -/
def char? (n : Nat) : Option Char :=
  if n.isValidChar then some (Char.ofNat n) else none

/-- The text that a body stands for, if all its backslashes begin escapes. -/
def decode? : List Char → Option (List Char)
  | [] => some []
  | '\\' :: 'u' :: a :: b :: c :: d :: cs => do
    let n ← codePoint? a b c d
    let x ← char? n
    let xs ← decode? cs
    return x :: xs
  | '\\' :: c :: cs => do
    let x ← simpleEscape? c
    let xs ← decode? cs
    return x :: xs
  | c :: cs =>
    if c = '\\' then none else (decode? cs).map (c :: ·)

end SchemaModels.StringLiteral
