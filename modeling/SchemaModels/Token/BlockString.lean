import SchemaModels.Text.Blank

/-! Block strings between triple double quotes. A backslash before a triple quote takes it into the
text. The text of a block string is its body without the common indentation of the lines after the
first and without blank lines at either end. -/

namespace SchemaModels.BlockString
set_option autoImplicit false

/-- Splits a text at the first triple quote that no backslash takes in, and drops the quotes. -/
def body? : List Char → Option (List Char × List Char)
  | [] => none
  | '\\' :: '"' :: '"' :: '"' :: cs =>
    (body? cs).map fun r => ('\\' :: '"' :: '"' :: '"' :: r.1, r.2)
  | '"' :: '"' :: '"' :: cs => some ([], cs)
  | c :: cs => (body? cs).map fun r => (c :: r.1, r.2)

/-- The body, three quotes and what follows make up the text. -/
theorem body?_append {cs : List Char} {r : List Char × List Char} (h : body? cs = some r) :
    r.1 ++ '"' :: '"' :: '"' :: r.2 = cs := by
  fun_induction body? cs generalizing r with
  | case1 => exact nomatch h
  | case2 cs ih =>
    obtain ⟨r', hr, rfl⟩ := Option.map_eq_some_iff.mp h
    simp [ih hr]
  | case3 cs =>
    cases h
    rfl
  | case4 c cs _ _ ih =>
    obtain ⟨r', hr, rfl⟩ := Option.map_eq_some_iff.mp h
    simp [ih hr]

/-- Drops the backslash before each triple quote. -/
def unescape : List Char → List Char
  | [] => []
  | '\\' :: '"' :: '"' :: '"' :: cs => '"' :: '"' :: '"' :: unescape cs
  | c :: cs => c :: unescape cs

/-! ## Lines -/

/-- Cuts a text at each CR LF pair. -/
def cutPairs : List Char → List (List Char)
  | [] => [[]]
  | '\r' :: '\n' :: cs => [] :: cutPairs cs
  | c :: cs => (cutPairs cs).modifyHead (c :: ·)

/-- Cuts a text into lines: at each CR LF pair, and the pieces at each LF or CR. -/
def lines (raw : List Char) : List (List Char) :=
  (cutPairs raw).flatMap (List.splitOnP fun c => c = '\n' || c = '\r')

/-- Whether a character indents a line. -/
def isIndent (c : Char) : Bool :=
  c = ' ' || c = '\t'

/-- The number of spaces and tabs that a line starts with. -/
def indentation (line : List Char) : Nat :=
  (line.takeWhile isIndent).length

/-- The least indentation of the lines that hold more than spaces and tabs; zero if none does. -/
def commonIndentation (ls : List (List Char)) : Nat :=
  ((ls.filter fun l => !l.all isIndent).map indentation).min?.getD 0

/-- Takes the common indentation of the lines after the first away from each of them. -/
def dedent : List (List Char) → List (List Char)
  | [] => []
  | first :: rest =>
    let common := commonIndentation rest
    first :: rest.map fun l => l.drop (min (indentation l) common)

/-- Whether a line holds blanks only. -/
def isBlankLine (line : List Char) : Bool :=
  line.all Text.isBlank

/-- Drops blank lines at both ends. -/
def dropBlankEnds (ls : List (List Char)) : List (List Char) :=
  ((ls.dropWhile isBlankLine).reverse.dropWhile isBlankLine).reverse

/-- The text that the body of a block string, without its escapes, stands for. -/
def value (raw : List Char) : List Char :=
  ['\n'].intercalate (dropBlankEnds (dedent (lines raw)))

end SchemaModels.BlockString
