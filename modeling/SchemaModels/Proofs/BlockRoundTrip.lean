import SchemaModels.Proofs.BlockText
import SchemaModels.Proofs.Layout

/-! Block strings round trip. A text that is written between triple quotes, on lines of its own and with a
backslash before each three quotes in it, is read back as one token that stands for the text. What the reader
does to a block string must not show: the text has no CR, no blank line at either end, and a line that is not
indented. -/

namespace SchemaModels.BlockString
set_option autoImplicit false

/-! ## Escaped quotes -/

/-- A text with a backslash before each three quotes, from left to right. -/
def escape : List Char → List Char
  | [] => []
  | '"' :: '"' :: '"' :: cs => '\\' :: '"' :: '"' :: '"' :: escape cs
  | c :: cs => c :: escape cs

/-- A quote at the front of an escaped text is one of the text, and not the first of three. -/
theorem quote_escape {cs qs rest : List Char} (h : '"' :: qs <+: escape cs ++ '\n' :: rest) :
    ∃ tail, cs = '"' :: tail ∧ (∀ more, tail ≠ '"' :: '"' :: more) ∧ qs <+: escape tail ++ '\n' :: rest := by
  fun_cases escape cs with
  | case1 => exact absurd (List.cons_prefix_cons.mp h).1 (by decide)
  | case2 cs => exact absurd (List.cons_prefix_cons.mp h).1 (by decide)
  | case3 c cs hplain =>
    rw [escape] at h
    · obtain ⟨rfl, htail⟩ := List.cons_prefix_cons.mp h
      exact ⟨cs, rfl, fun more he => hplain more rfl he, htail⟩
    · exact hplain

theorem not_quotes_escape (cs rest : List Char) : ¬ tripleQuote <+: escape cs ++ '\n' :: rest := by
  intro h
  obtain ⟨one, rfl, hone, h⟩ := quote_escape h
  obtain ⟨two, rfl, -, h⟩ := quote_escape h
  obtain ⟨three, rfl, -, -⟩ := quote_escape h
  exact hone three rfl

theorem body?_escape (cs rest : List Char) :
    body? (escape cs ++ '\n' :: (tripleQuote ++ rest)) = some (escape cs ++ ['\n'], rest) := by
  fun_induction escape cs with
  | case1 => rfl
  | case2 cs ih =>
    simp only [List.cons_append, body?, ih, Option.map_some]
  | case3 c cs hplain ih =>
    rw [List.cons_append, body?, ih]
    · rfl
    · rintro more rfl he
      exact not_quotes_escape cs _ ⟨more, he.symm⟩
    · rintro more rfl he
      have hquotes : ['"', '"'] <+: escape cs ++ '\n' :: (tripleQuote ++ rest) := ⟨more, he.symm⟩
      obtain ⟨one, rfl, -, hone⟩ := quote_escape hquotes
      obtain ⟨two, rfl, -, -⟩ := quote_escape hone
      exact hplain two rfl rfl

theorem unescape_escape (cs : List Char) : unescape (escape cs ++ ['\n']) = cs ++ ['\n'] := by
  fun_induction escape cs with
  | case1 => rfl
  | case2 cs ih => simp [unescape, ih]
  | case3 c cs hplain ih =>
    rw [List.cons_append, unescape, ih]
    · rfl
    · rintro more rfl he
      exact not_quotes_escape cs _ ⟨more, he.symm⟩

/-! ## Lines of a text -/

theorem lines_eq_splitOn {cs : List Char} (h : '\r' ∉ cs) : lines cs = cs.splitOn '\n' := by
  induction cs with
  | nil => rfl
  | cons c cs ih =>
    rw [List.mem_cons, not_or] at h
    rw [List.splitOn_cons_eq_if_modifyHead, ← ih h.2]
    by_cases hc : c = '\n'
    · subst hc
      exact LineMark.lf.lines_append
    · have hplain : isLineEnd c = false := by simp [isLineEnd, hc, Ne.symm h.1]
      rw [lines_cons hplain, if_neg (by simpa using hc)]

theorem dedent_of_unindented {first : List Char} {rest : List (List Char)} (h : HasIndent rest 0) :
    dedent (first :: rest) = first :: rest := by
  have hzero : commonIndentation rest = 0 := (leastIndent_iff.mp (Or.inl ⟨h, fun k _ => Nat.zero_le k⟩)).symm
  simp [dedent, hzero]

theorem value_of_lines {text : List Char} (hcr : '\r' ∉ text)
    (hends : ∀ line, (text.splitOn '\n').head? = some line ∨ (text.splitOn '\n').getLast? = some line →
      isBlankLine line = false)
    (hline : ∃ line ∈ text.splitOn '\n', isBlankLine line = false ∧
      ∀ c, line.head? = some c → c ≠ ' ' ∧ c ≠ '\t') : value ('\n' :: (text ++ ['\n'])) = text := by
  have hlines : lines ('\n' :: (text ++ ['\n'])) = [] :: (text.splitOn '\n' ++ [[]]) := by
    have hcut : lines (text ++ ['\n']) = text.splitOn '\n' ++ [[]] := by
      rw [lines_eq_splitOn (by simpa using hcr), List.splitOn_append_cons_self, List.splitOn_nil]
    rw [← hcut]
    exact LineMark.lf.lines_append
  have hindent : HasIndent (text.splitOn '\n' ++ [[]]) 0 := by
    obtain ⟨line, hmem, hblank, hhead⟩ := hline
    refine ⟨line, List.mem_append_left _ hmem, [], line, ⟨rfl, List.forall_mem_nil _, fun c hc => ?_⟩, ?_, rfl⟩
    · simpa [isIndent] using hhead c hc
    · rintro rfl
      cases hblank
  have htrimmed : Trimmed isBlankLine ([] :: (text.splitOn '\n' ++ [[]])) (text.splitOn '\n') := by
    refine ⟨[[]], [[]], by simp, fun line hmem => ?_, hends⟩
    simp only [List.singleton_append, List.mem_cons, List.not_mem_nil, or_false, or_self] at hmem
    rw [hmem]
    rfl
  have hkept : dropBlankEnds ([] :: (text.splitOn '\n' ++ [[]])) = text.splitOn '\n' := (trimmed_iff.mp htrimmed).symm
  rw [value, hlines, dedent_of_unindented hindent, hkept, List.intercalate_splitOn]

/-! ## The written text -/

/-- A text as a block string, on lines of its own. -/
def written (text : List Char) : List Char :=
  tripleQuote ++ '\n' :: (escape text ++ '\n' :: tripleQuote)

theorem ofChars_written (text : List Char) :
    Reading.ofChars (written text) =
      .ok ⟨.blockString (String.ofList (value ('\n' :: (text ++ ['\n'])))), written text, []⟩ := by
  -- the line break in front is escaped as it is, so that it belongs to the text
  have hbody : body? ('\n' :: (escape text ++ '\n' :: tripleQuote)) = some ('\n' :: (escape text ++ ['\n']), []) :=
    body?_escape ('\n' :: text) []
  have hraw : unescape ('\n' :: (escape text ++ ['\n'])) = '\n' :: (text ++ ['\n']) :=
    unescape_escape ('\n' :: text)
  have hread : Reading.ofChars (written text) =
      Reading.blockString ('\n' :: (escape text ++ '\n' :: tripleQuote)) := rfl
  rw [hread, Reading.blockString, hbody]
  simp only [hraw, written, tripleQuote, List.cons_append, List.append_assoc, List.nil_append]

/-- A text without CR that has a line which is neither blank nor indented, and no blank line at either end, is
what the block string stands for that it is written as, and nothing else is read there. -/
theorem tokenize_written {text : List Char} (hcr : '\r' ∉ text)
    (hends : ∀ line, (text.splitOn '\n').head? = some line ∨ (text.splitOn '\n').getLast? = some line →
      isBlankLine line = false)
    (hline : ∃ line ∈ text.splitOn '\n', isBlankLine line = false ∧
      ∀ c, line.head? = some c → c ≠ ' ' ∧ c ≠ '\t') :
    tokenize (written text) = .ok [⟨.blockString (String.ofList text), String.ofList (written text), 0,
      byteLength (written text)⟩] := by
  have hread := ofChars_written text
  rw [value_of_lines hcr hends hline] at hread
  rw [tokenize, Lexeme.scan, Lexeme.scanFrom_step [] 0 (splitGap_of_read hread) hread, Lexeme.scanFrom_end _ _ rfl]
  simp [Except.mapError, byteLength]

/-- Five quotes, a backslash before three, and a line that is indented. -/
theorem tokenize_written_quotes :
    tokenize "\"\"\"\n\\\"\"\"\"\" a\n\t\\\\\"\"\"\n\"\"\"".toList =
      .ok [⟨.blockString "\"\"\"\"\" a\n\t\\\"\"\"", "\"\"\"\n\\\"\"\"\"\" a\n\t\\\\\"\"\"\n\"\"\"", 0, 23⟩] := by
  let text := "\"\"\"\"\" a\n\t\\\"\"\"".toList
  have hlines : text.splitOn '\n' = ["\"\"\"\"\" a".toList, "\t\\\"\"\"".toList] := by decide +kernel
  have hends : ∀ line, (text.splitOn '\n').head? = some line ∨ (text.splitOn '\n').getLast? = some line →
      isBlankLine line = false := by
    rw [hlines]
    rintro line (⟨⟨⟩⟩ | ⟨⟨⟩⟩) <;> decide
  have hline : ∃ line ∈ text.splitOn '\n', isBlankLine line = false ∧
      ∀ c, line.head? = some c → c ≠ ' ' ∧ c ≠ '\t' := by
    rw [hlines]
    refine ⟨_, List.mem_cons_self, by decide, ?_⟩
    rintro c ⟨⟩
    decide
  exact tokenize_written (by decide) hends hline

end SchemaModels.BlockString
