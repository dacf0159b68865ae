import SchemaModels.Text.Position
import SchemaModels.Token
import SchemaModels.Token.Number
import SchemaModels.Token.StringLiteral
import SchemaModels.Token.BlockString

/-! Lexemes: the tokens of a source text with their places. Blanks, commas and comments stand
between tokens and are passed over. At every other place the longest token is taken; where three
quotes stand, only a block string can start. -/

namespace SchemaModels
set_option autoImplicit false

/-! ## Gaps -/

/-- Whether a character is passed over between tokens. -/
def isIgnored (c : Char) : Bool :=
  c = ' ' || c = '\t' || c = '\r' || c = '\n' || c = ','

/-- Whether a character ends a comment. -/
def isLineEnd (c : Char) : Bool :=
  c = '\r' || c = '\n'

/-- Splits off the ignored characters and comments at the start of a text. The flag says whether
the text starts inside a comment. -/
def splitGap : Bool → List Char → List Char × List Char
  | _, [] => ([], [])
  | true, c :: cs =>
    let r := splitGap (!isLineEnd c) cs
    (c :: r.1, r.2)
  | false, c :: cs =>
    if isIgnored c || c = '#' then
      let r := splitGap (c = '#') cs
      (c :: r.1, r.2)
    else ([], c :: cs)

theorem splitGap_append (comment : Bool) (cs : List Char) :
    (splitGap comment cs).1 ++ (splitGap comment cs).2 = cs := by
  fun_induction splitGap comment cs <;> simp_all +zetaDelta

/-! ## One token -/

/-- A token at the start of a text: the token, its spelling and what follows it. -/
structure Reading where
  token : Token
  text : List Char
  rest : List Char

namespace Reading

/-- Reads what follows three quotes. -/
def blockString (cs : List Char) : Except (List Char) Reading :=
  match BlockString.body? cs with
  | some (body, rest) =>
    .ok ⟨.blockString (String.ofList (BlockString.value (BlockString.unescape body))),
      '"' :: '"' :: '"' :: body ++ ['"', '"', '"'], rest⟩
  | none => .error ['"', '"', '"']

/-- Reads what follows one quote. -/
def string (cs : List Char) : Except (List Char) Reading :=
  match StringLiteral.body cs with
  | (body, '"' :: rest) =>
    let text := '"' :: body ++ ['"']
    match StringLiteral.decode? body with
    | some value => .ok ⟨.string (String.ofList value), text, rest⟩
    | none => .error text
  | (body, _) => .error ('"' :: body)

/-- Reads a name whose first character is `c`. -/
def name (c : Char) (cs : List Char) : Reading :=
  let text := c :: cs.takeWhile isNamePart
  ⟨.name (String.ofList text), text, cs.dropWhile isNamePart⟩

/-- The reading of a number literal. -/
def number (n : Number.Literal) : Reading :=
  ⟨if n.isFloat then .float (String.ofList n.text) else .int (String.ofList n.text), n.text, n.rest⟩

/-- Reads the token at the start of a text, or gives the text that makes no token. -/
def ofChars : List Char → Except (List Char) Reading
  | [] => .error []
  | '"' :: '"' :: '"' :: cs => blockString cs
  | '"' :: cs => string cs
  | '.' :: '.' :: '.' :: cs => .ok ⟨.spread, ['.', '.', '.'], cs⟩
  | c :: cs =>
    match Token.ofChar? c with
    | some t => .ok ⟨t, [c], cs⟩
    | none =>
      if isNameStart c then .ok (name c cs)
      else
        match Number.read? (c :: cs) with
        | some n => .ok (number n)
        | none => .error [c]

theorem blockString_append {cs : List Char} {r : Reading} (h : blockString cs = .ok r) :
    r.text ++ r.rest = '"' :: '"' :: '"' :: cs ∧ r.text ≠ [] := by
  unfold blockString at h
  split at h
  · next body rest hb =>
    cases h
    have happ := BlockString.body?_append hb
    exact ⟨by simpa using happ, List.cons_ne_nil _ _⟩
  · exact nomatch h

theorem string_append {cs : List Char} {r : Reading} (h : string cs = .ok r) :
    r.text ++ r.rest = '"' :: cs ∧ r.text ≠ [] := by
  have happ := StringLiteral.body_append cs
  unfold string at h
  split at h
  · next body rest hb =>
    rw [hb] at happ
    dsimp only at h
    split at h
    · cases h
      exact ⟨by simpa using happ, List.cons_ne_nil _ _⟩
    · exact nomatch h
  · exact nomatch h

theorem name_append (c : Char) (cs : List Char) :
    (name c cs).text ++ (name c cs).rest = c :: cs ∧ (name c cs).text ≠ [] :=
  ⟨by simp [name, List.takeWhile_append_dropWhile], List.cons_ne_nil _ _⟩

/-- A token's spelling is not empty, and with what follows it makes up the text. -/
theorem ofChars_append {cs : List Char} {r : Reading} (h : ofChars cs = .ok r) :
    r.text ++ r.rest = cs ∧ r.text ≠ [] := by
  unfold ofChars at h
  split at h
  · exact nomatch h
  · exact blockString_append h
  · exact string_append h
  · cases h
    exact ⟨rfl, List.cons_ne_nil _ _⟩
  · split at h
    · cases h
      exact ⟨rfl, List.cons_ne_nil _ _⟩
    · split at h
      · cases h
        exact name_append _ _
      · split at h
        · next n hn =>
          cases h
          exact Number.read?_append hn
        · exact nomatch h

theorem length_rest_lt {cs : List Char} {r : Reading} (h : ofChars cs = .ok r) :
    r.rest.length < cs.length := by
  obtain ⟨happ, hne⟩ := ofChars_append h
  have hpos := List.length_pos_iff.mpr hne
  rw [← happ, List.length_append]
  omega

end Reading

/-! ## All tokens -/

/-- A token with its spelling and the byte offsets of its two ends. -/
structure Lexeme where
  token : Token
  text : String
  start : Nat
  stop : Nat
deriving DecidableEq, Repr

/-- A piece of text that makes no token, and its byte offset. -/
structure Unreadable where
  text : String
  offset : Nat
deriving DecidableEq, Repr

namespace Lexeme

/-- The lexemes of a text that starts at a byte offset, after those already found, which are given
last one first. -/
def scanFrom (found : List Lexeme) (offset : Nat) (cs : List Char) :
    Except Unreadable (List Lexeme) :=
  match _hgap : splitGap false cs with
  | (_, []) => .ok found.reverse
  | (gap, c :: rest) =>
    let start := offset + byteLength gap
    match _hread : Reading.ofChars (c :: rest) with
    | .error text => .error ⟨String.ofList text, start⟩
    | .ok r =>
      let stop := start + byteLength r.text
      scanFrom (⟨r.token, String.ofList r.text, start, stop⟩ :: found) stop r.rest
termination_by cs.length
decreasing_by
  have hlen := congrArg List.length (splitGap_append false cs)
  rw [_hgap, List.length_append] at hlen
  have hlt := Reading.length_rest_lt _hread
  dsimp only at hlen
  omega

/-- The lexemes of a source text. -/
def scan (source : List Char) : Except Unreadable (List Lexeme) :=
  scanFrom [] 0 source

end Lexeme

end SchemaModels
