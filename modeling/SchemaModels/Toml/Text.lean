import SchemaModels.Token.StringLiteral

/-! Texts of TOML documents: basic ones in double quotes, with escapes, and literal ones in single
quotes, each on one line or, in triple quotes, on several. Each reader starts after the opening
quotes. -/

namespace SchemaModels.Toml
set_option autoImplicit false

/-! ## Characters -/

/-- Whether a character separates words on a line. -/
def isSpace (c : Char) : Bool :=
  c = ' ' || c = '\t'

/-- Whether a character may stand in a text or comment as itself: a tab, or no control. -/
def isPlain (c : Char) : Bool :=
  c = '\t' || (0x20 ≤ c.toNat && c.toNat ≠ 0x7F)

/-- Drops a line end, LF or CR LF. -/
def lineEnd? : List Char → Option (List Char)
  | '\n' :: cs => some cs
  | '\r' :: '\n' :: cs => some cs
  | _ => none

/-! ## Escapes -/

/-- The character that a backslash and one letter stand for. -/
def simpleEscape? : Char → Option Char
  | '"' => some '"'
  | '\\' => some '\\'
  | 'b' => some '\x08'
  | 't' => some '\t'
  | 'n' => some '\n'
  | 'f' => some '\x0c'
  | 'r' => some '\r'
  | 'e' => some '\x1b'
  | _ => none

/-- The character that hexadecimal digits denote. -/
def numbered? (digits : List Char) : Option Char :=
  (StringLiteral.hexNumber? digits).bind StringLiteral.char?

/-- Whether a line ends after spaces only. -/
def endsLine (cs : List Char) : Bool :=
  (lineEnd? (cs.dropWhile isSpace)).isSome

/-- Decodes a basic body. A backslash at the end of a line takes the line end and the blanks after
it away; the flag says whether such blanks are being passed over. -/
def decode? : Bool → List Char → Option (List Char)
  | _, [] => some []
  | _, '\\' :: cs =>
    if endsLine cs then decode? true cs
    else
      match cs with
      | 'x' :: a :: b :: cs => do return (← numbered? [a, b]) :: (← decode? false cs)
      | 'u' :: a :: b :: c :: d :: cs => do
        return (← numbered? [a, b, c, d]) :: (← decode? false cs)
      | 'U' :: a :: b :: c :: d :: e :: f :: g :: h :: cs => do
        return (← numbered? [a, b, c, d, e, f, g, h]) :: (← decode? false cs)
      | c :: cs => do return (← simpleEscape? c) :: (← decode? false cs)
      | [] => none
  | skipping, c :: cs =>
    if skipping && (isSpace c || c = '\n' || c = '\r') then decode? true cs
    else do return c :: (← decode? false cs)

/-! ## Bodies -/

/-- Splits a text on one line at its closing quote, which is dropped. -/
def lineBody? (quote : Char) (escapes : Bool) : List Char → Option (List Char × List Char)
  | [] => none
  | c :: cs =>
    if c = quote then some ([], cs)
    else if escapes && c = '\\' then
      match cs with
      | [] => none
      | e :: cs =>
        if isPlain e then (lineBody? quote escapes cs).map fun r => (c :: e :: r.1, r.2) else none
    else if isPlain c then (lineBody? quote escapes cs).map fun r => (c :: r.1, r.2)
    else none

/-- Splits a text on several lines at its closing quotes, which are dropped. Up to two quotes right
before them belong to the text. -/
def blockBody? (quote : Char) (escapes : Bool) : List Char → Option (List Char × List Char)
  | [] => none
  | c :: cs =>
    if c = quote && cs.take 4 = [quote, quote, quote, quote] then some ([c, c], cs.drop 4)
    else if c = quote && cs.take 3 = [quote, quote, quote] then some ([c], cs.drop 3)
    else if c = quote && cs.take 2 = [quote, quote] then some ([], cs.drop 2)
    else if escapes && c = '\\' then
      match cs with
      | [] => none
      | e :: cs =>
        if isPlain e || e = '\n' || (e = '\r' && cs.head? = some '\n') then
          (blockBody? quote escapes cs).map fun r => (c :: e :: r.1, r.2)
        else none
    else if isPlain c || c = '\n' || (c = '\r' && cs.head? = some '\n') then
      (blockBody? quote escapes cs).map fun r => (c :: r.1, r.2)
    else none

/-- Drops a line end at the very start. -/
def dropFirstLineEnd (cs : List Char) : List Char :=
  (lineEnd? cs).getD cs

/-! ## Whole texts -/

/-- A text on one line and what follows it. -/
def lineText? (quote : Char) (cs : List Char) : Option (String × List Char) :=
  if quote = '"' then do
    let r ← lineBody? quote true cs
    let text ← decode? false r.1
    return (String.ofList text, r.2)
  else
    (lineBody? quote false cs).map fun r => (String.ofList r.1, r.2)

/-- A text on several lines and what follows it. -/
def blockText? (quote : Char) (cs : List Char) : Option (String × List Char) :=
  if quote = '"' then do
    let r ← blockBody? quote true (dropFirstLineEnd cs)
    let text ← decode? false r.1
    return (String.ofList text, r.2)
  else
    (blockBody? quote false (dropFirstLineEnd cs)).map fun r => (String.ofList r.1, r.2)

end SchemaModels.Toml
