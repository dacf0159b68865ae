import Mathlib.Data.List.Forall2
import SchemaModels.Proofs.Ends
import SchemaModels.Proofs.Spelling

/-! The text of a block string, by rules. The raw text is cut at its line ends; the lines after the first lose
the least indentation among those that hold more than spaces and tabs; blank lines go from both ends, and line
feeds join what is left. Which lines count as blank is a parameter: lines of spaces and tabs in the rules of the
language, lines of any blanks where the text is computed. The two give the same text exactly if the first and the
last line with more than spaces and tabs also hold more than blanks. -/

namespace SchemaModels.BlockString
set_option autoImplicit false

/-! ## The rules -/

/-- The mark at the end of a line; a CR is one of its own only where no LF follows. -/
inductive LineMark : List Char → List Char → Prop
  | crlf {rest : List Char} : LineMark ['\r', '\n'] rest
  | lf {rest : List Char} : LineMark ['\n'] rest
  | cr {rest : List Char} : rest.head? ≠ some '\n' → LineMark ['\r'] rest

inductive CutLines : List Char → List (List Char) → Prop
  | last {line : List Char} : (∀ c ∈ line, isLineEnd c = false) → CutLines line [line]
  | next {line mark rest : List Char} {ls : List (List Char)} : (∀ c ∈ line, isLineEnd c = false) →
    LineMark mark rest → CutLines rest ls → CutLines (line ++ (mark ++ rest)) (line :: ls)

/-- A line as its spaces and tabs in front and what follows them. -/
structure Indented (line indent rest : List Char) : Prop where
  chars : line = indent ++ rest
  indent : ∀ c ∈ indent, isIndent c = true
  rest : ∀ c, rest.head? = some c → isIndent c = false

/-- One of the lines holds more than spaces and tabs, behind `n` of them. -/
def HasIndent (ls : List (List Char)) (n : Nat) : Prop :=
  ∃ line ∈ ls, ∃ indent rest, Indented line indent rest ∧ rest ≠ [] ∧ indent.length = n

/-- The least indentation of the lines that hold more than spaces and tabs; zero if none does. -/
def LeastIndent (ls : List (List Char)) (n : Nat) : Prop :=
  (HasIndent ls n ∧ ∀ k, HasIndent ls k → n ≤ k) ∨ (∀ k, ¬ HasIndent ls k) ∧ n = 0

/-- A line without up to `n` of its spaces and tabs in front. -/
def Outdented (n : Nat) (line shorter : List Char) : Prop :=
  ∃ indent rest, Indented line indent rest ∧ shorter = indent.drop n ++ rest

/-- Lines without the blank ones at both ends. -/
def Trimmed (blank : List Char → Bool) (ls kept : List (List Char)) : Prop :=
  ∃ front back, ls = front ++ kept ++ back ∧ (∀ line ∈ front ++ back, blank line = true) ∧
    ∀ line, kept.head? = some line ∨ kept.getLast? = some line → blank line = false

/-- What a raw text stands for, with lines of a kind taken for blank. -/
def Rules (blank : List Char → Bool) (raw text : List Char) : Prop :=
  ∃ first rest n shorter kept, CutLines raw (first :: rest) ∧ LeastIndent rest n ∧
    List.Forall₂ (Outdented n) rest shorter ∧ Trimmed blank (first :: shorter) kept ∧
    text = ['\n'].intercalate kept

/-- Whether a line holds spaces and tabs only. -/
def isIndentLine (line : List Char) : Bool :=
  line.all isIndent

/-- The first and the last line with more than spaces and tabs hold more than blanks, if there are any. -/
def SolidEnds (ls : List (List Char)) : Prop :=
  ∀ line, ls.find? (fun line => !isIndentLine line) = some line ∨
    ls.findRev? (fun line => !isIndentLine line) = some line → isBlankLine line = false

/-! ## Lines -/

theorem lines_nil : lines [] = [[]] :=
  rfl

theorem cutPairs_ne_nil (cs : List Char) : cutPairs cs ≠ [] := by
  fun_induction cutPairs cs with
  | case1 => simp
  | case2 => simp
  | case3 c cs _ ih => simpa [List.modifyHead_eq_nil_iff] using ih

/-- A character that starts no CR LF pair counts for the cuts at LF or CR only. -/
theorem lines_cons_of_single {c : Char} {cs : List Char} (h : ¬ (c = '\r' ∧ cs.head? = some '\n')) :
    lines (c :: cs) = if isLineEnd c then [] :: lines cs else (lines cs).modifyHead (c :: ·) := by
  have hcut : cutPairs (c :: cs) = (cutPairs cs).modifyHead (c :: ·) := by
    rw [cutPairs]
    rintro more rfl rfl
    exact h ⟨rfl, rfl⟩
  rw [lines, lines, hcut]
  cases hpieces : cutPairs cs with
  | nil => exact absurd hpieces (cutPairs_ne_nil cs)
  | cons piece pieces =>
    have hend : (decide (c = '\n') || decide (c = '\r')) = isLineEnd c := Bool.or_comm _ _
    rw [List.modifyHead_cons, List.flatMap_cons, List.flatMap_cons, List.splitOnP_cons_eq_if_modifyHead, hend]
    cases hsplit : piece.splitOnP fun c => c = '\n' || c = '\r' with
    | nil => exact absurd hsplit (List.splitOnP_ne_nil _ piece)
    | cons line ls =>
      split <;> rfl

theorem lines_ne_nil (cs : List Char) : lines cs ≠ [] := by
  obtain ⟨piece, hpiece⟩ := List.exists_mem_of_ne_nil _ (cutPairs_ne_nil cs)
  intro hnil
  exact List.splitOnP_ne_nil _ piece (List.flatMap_eq_nil_iff.mp hnil piece hpiece)

theorem lines_cons {c : Char} (h : isLineEnd c = false) (cs : List Char) :
    lines (c :: cs) = (lines cs).modifyHead (c :: ·) := by
  rw [lines_cons_of_single, h, if_neg Bool.false_ne_true]
  rintro ⟨rfl, -⟩
  exact absurd h (by decide)

theorem lines_append {line : List Char} (h : ∀ c ∈ line, isLineEnd c = false) (cs : List Char) :
    lines (line ++ cs) = (lines cs).modifyHead (line ++ ·) := by
  induction line with
  | nil => exact (congrFun List.modifyHead_id _).symm
  | cons c line ih =>
    obtain ⟨hc, hline⟩ := List.forall_mem_cons.mp h
    rw [List.cons_append, lines_cons hc, ih hline, List.modifyHead_modifyHead]
    rfl

theorem LineMark.lines_append {mark rest : List Char} (h : LineMark mark rest) :
    lines (mark ++ rest) = [] :: lines rest := by
  cases h with
  | crlf => rfl
  | lf => exact lines_cons_of_single fun h => absurd h.1 (by decide)
  | cr hrest => exact lines_cons_of_single fun h => hrest h.2

/-- Cutting at CR LF pairs first and at single line ends then cuts at every mark. -/
theorem cutLines_lines (cs : List Char) : CutLines cs (lines cs) := by
  induction cs using cutPairs.induct with
  | case1 => exact .last (List.forall_mem_nil _)
  | case2 cs ih => exact .next (List.forall_mem_nil _) .crlf ih
  | case3 c cs hcrlf ih =>
    have hsingle : ¬ (c = '\r' ∧ cs.head? = some '\n') := by
      rintro ⟨rfl, hhead⟩
      obtain ⟨more, rfl⟩ := List.head?_eq_some_iff.mp hhead
      exact hcrlf more rfl rfl
    rw [lines_cons_of_single hsingle]
    cases hc : isLineEnd c with
    | true =>
      have hmark : LineMark [c] cs := by
        have hcases : c = '\n' ∨ c = '\r' := by simpa [isLineEnd, or_comm] using hc
        rcases hcases with rfl | rfl
        · exact .lf
        · exact .cr fun hhead => hsingle ⟨rfl, hhead⟩
      exact .next (List.forall_mem_nil _) hmark ih
    | false =>
      rw [if_neg Bool.false_ne_true]
      generalize lines cs = ls at ih
      cases ih with
      | last hline => exact .last (List.forall_mem_cons.mpr ⟨hc, hline⟩)
      | next hline hmark hrest => exact .next (List.forall_mem_cons.mpr ⟨hc, hline⟩) hmark hrest

theorem cutLines_iff {cs : List Char} {ls : List (List Char)} : CutLines cs ls ↔ ls = lines cs := by
  refine ⟨fun h => ?_, fun h => h ▸ cutLines_lines cs⟩
  induction h with
  | @last line hline =>
    have happ := lines_append hline []
    rw [List.append_nil] at happ
    rw [happ, lines_nil, List.modifyHead_cons, List.append_nil]
  | next hline hmark _ ih =>
    rw [lines_append hline, hmark.lines_append, List.modifyHead_cons, List.append_nil, ih]

theorem CutLines.plain {cs : List Char} {ls : List (List Char)} (h : CutLines cs ls) :
    ∀ line ∈ ls, ∀ c ∈ line, isLineEnd c = false := by
  induction h with
  | last hline => exact List.forall_mem_singleton.mpr hline
  | next hline _ _ ih => exact List.forall_mem_cons.mpr ⟨hline, ih⟩

/-! ## Indentation -/

theorem indented_iff {line indent rest : List Char} :
    Indented line indent rest ↔ indent = line.takeWhile isIndent ∧ rest = line.dropWhile isIndent := by
  constructor
  · rintro ⟨rfl, hindent, hrest⟩
    obtain ⟨htake, hdrop⟩ := span_append hindent hrest
    exact ⟨htake.symm, hdrop.symm⟩
  · rintro ⟨rfl, rfl⟩
    exact ⟨List.takeWhile_append_dropWhile.symm, fun c hc => List.mem_takeWhile_imp hc,
      fun c hc => not_of_head_dropWhile hc⟩

theorem hasIndent_iff {ls : List (List Char)} {n : Nat} :
    HasIndent ls n ↔ n ∈ (ls.filter fun line => !line.all isIndent).map indentation := by
  have hmore : ∀ line : List Char, line.dropWhile isIndent ≠ [] ↔ (!line.all isIndent) = true := by
    intro line
    rw [Ne, List.dropWhile_eq_nil_iff, Bool.not_eq_true', ← List.all_eq_true, Bool.not_eq_true]
  simp only [HasIndent, indented_iff, List.mem_map, List.mem_filter, ← hmore]
  constructor
  · rintro ⟨line, hline, _, _, ⟨rfl, rfl⟩, hrest, rfl⟩
    exact ⟨line, ⟨hline, hrest⟩, rfl⟩
  · rintro ⟨line, ⟨hline, hrest⟩, rfl⟩
    exact ⟨line, hline, _, _, ⟨rfl, rfl⟩, hrest, rfl⟩

theorem leastIndent_iff {ls : List (List Char)} {n : Nat} : LeastIndent ls n ↔ n = commonIndentation ls := by
  simp only [LeastIndent, hasIndent_iff, commonIndentation]
  generalize (ls.filter fun line => !line.all isIndent).map indentation = indents
  cases hmin : indents.min? with
  | none =>
    rw [List.min?_eq_none_iff.mp hmin]
    simp
  | some k =>
    obtain ⟨hk, hle⟩ := List.min?_eq_some_iff.mp hmin
    constructor
    · rintro (⟨hn, hleast⟩ | ⟨hnone, -⟩)
      · exact Nat.le_antisymm (hleast k hk) (hle n hn)
      · exact absurd hk (hnone k)
    · rintro rfl
      exact Or.inl ⟨hk, hle⟩

theorem drop_indentation (n : Nat) (line : List Char) :
    line.drop (min (indentation line) n) = (line.takeWhile isIndent).drop n ++ line.dropWhile isIndent := by
  have hcut : ∀ k, line.drop k = (line.takeWhile isIndent ++ line.dropWhile isIndent).drop k := by
    intro k
    rw [List.takeWhile_append_dropWhile]
  rw [hcut]
  rcases Nat.le_total (indentation line) n with hle | hle
  · rw [Nat.min_eq_left hle, List.drop_eq_nil_of_le hle]
    exact List.drop_left
  · rw [Nat.min_eq_right hle, List.drop_append_of_le_length hle]

theorem outdented_iff {n : Nat} {line shorter : List Char} :
    Outdented n line shorter ↔ shorter = line.drop (min (indentation line) n) := by
  simp [Outdented, indented_iff, drop_indentation]

/-! ## Ends -/

def trimEnds (blank : List Char → Bool) (ls : List (List Char)) : List (List Char) :=
  (ls.dropWhile blank).rdropWhile blank

theorem trimmed_iff {blank : List Char → Bool} {ls kept : List (List Char)} :
    Trimmed blank ls kept ↔ kept = trimEnds blank ls :=
  eq_rdropWhile_iff.symm

theorem trimmed_trimEnds (blank : List Char → Bool) (ls : List (List Char)) :
    Trimmed blank ls (trimEnds blank ls) :=
  trimmed_iff.mpr rfl

/-- What is kept starts with the first line that is not blank. -/
theorem Trimmed.head? {blank : List Char → Bool} {ls kept : List (List Char)} (h : Trimmed blank ls kept) :
    kept.head? = ls.find? fun line => !blank line := by
  obtain ⟨front, back, rfl, hblank, hends⟩ := h
  obtain ⟨hfront, hback⟩ := List.forall_mem_append.mp hblank
  have hnone : ∀ {ls : List (List Char)}, (∀ line ∈ ls, blank line = true) →
      ls.find? (fun line => !blank line) = none := by
    intro ls hls
    exact List.find?_eq_none.mpr fun line hline => by simp [hls line hline]
  rw [List.append_assoc, List.find?_append, hnone hfront, Option.none_or]
  cases kept with
  | nil => exact (hnone hback).symm
  | cons line kept => simp [hends line (Or.inl rfl)]

theorem Trimmed.reverse {blank : List Char → Bool} {ls kept : List (List Char)} (h : Trimmed blank ls kept) :
    Trimmed blank ls.reverse kept.reverse := by
  obtain ⟨front, back, rfl, hblank, hends⟩ := h
  refine ⟨back.reverse, front.reverse, by simp, fun line hline => hblank line ?_, fun line hline => hends line ?_⟩
  · simpa [or_comm] using hline
  · simpa [or_comm] using hline

theorem Trimmed.getLast? {blank : List Char → Bool} {ls kept : List (List Char)} (h : Trimmed blank ls kept) :
    kept.getLast? = ls.findRev? fun line => !blank line := by
  rw [List.findRev?_eq_find?_reverse, ← h.reverse.head?, List.head?_reverse]

/-! ## Rules and values -/

theorem forall₂_outdented {n : Nat} {ls shorter : List (List Char)} :
    List.Forall₂ (Outdented n) ls shorter ↔ shorter = ls.map fun line => line.drop (min (indentation line) n) := by
  have hsame : Outdented n = fun line shorter => line.drop (min (indentation line) n) = shorter := by
    funext line shorter
    exact propext (outdented_iff.trans eq_comm)
  rw [hsame, ← List.forall₂_map_left_iff, List.forall₂_eq_eq_eq, eq_comm]

theorem rules_iff {blank : List Char → Bool} {raw text : List Char} :
    Rules blank raw text ↔ text = ['\n'].intercalate (trimEnds blank (dedent (lines raw))) := by
  obtain ⟨first, rest, hlines⟩ := List.exists_cons_of_ne_nil (lines_ne_nil raw)
  simp only [Rules, cutLines_iff, leastIndent_iff, forall₂_outdented, trimmed_iff, hlines, List.cons.injEq, dedent]
  constructor
  · rintro ⟨_, _, _, _, _, ⟨rfl, rfl⟩, rfl, rfl, rfl, rfl⟩
    rfl
  · rintro rfl
    exact ⟨first, rest, _, _, _, ⟨rfl, rfl⟩, rfl, rfl, rfl, rfl⟩

/-! ## Two kinds of blank lines -/

theorem isBlank_of_isIndent {c : Char} (h : isIndent c = true) : Text.isBlank c = true := by
  simp only [isIndent, Bool.or_eq_true, decide_eq_true_eq] at h
  rcases h with rfl | rfl <;> rfl

theorem isBlankLine_of_isIndentLine {line : List Char} (h : isIndentLine line = true) : isBlankLine line = true :=
  List.all_eq_true.mpr fun c hc => isBlank_of_isIndent (List.all_eq_true.mp h c hc)

/-- A line and what is left of it are blank alike. -/
def Alike (line shorter : List Char) : Prop :=
  isIndentLine shorter = isIndentLine line ∧ isBlankLine shorter = isBlankLine line

theorem alike_drop (n : Nat) (line : List Char) : Alike line (line.drop (min (indentation line) n)) := by
  have hall : ∀ p : Char → Bool, (∀ c, isIndent c = true → p c = true) →
      (line.drop (min (indentation line) n)).all p = line.all p := by
    intro p hp
    have hindent : ∀ c ∈ line.takeWhile isIndent, p c = true := fun c hc => hp c (List.mem_takeWhile_imp hc)
    have hdropped : ∀ c ∈ (line.takeWhile isIndent).drop n, p c = true := fun c hc =>
      hindent c (List.mem_of_mem_drop hc)
    conv_rhs => rw [← List.takeWhile_append_dropWhile (p := isIndent) (l := line)]
    rw [drop_indentation, List.all_append, List.all_append, List.all_eq_true.mpr hindent,
      List.all_eq_true.mpr hdropped]
  exact ⟨hall _ fun _ h => h, hall _ fun _ => isBlank_of_isIndent⟩

theorem alike_dedent (ls : List (List Char)) : List.Forall₂ Alike ls (dedent ls) := by
  cases ls with
  | nil => exact .nil
  | cons first rest =>
    refine .cons ⟨rfl, rfl⟩ (List.forall₂_map_right_iff.mpr (List.forall₂_same.mpr fun line _ => ?_))
    exact alike_drop _ line

theorem find?_alike {ls shorter : List (List Char)} (h : List.Forall₂ Alike ls shorter) :
    (∀ line, shorter.find? (fun line => !isIndentLine line) = some line → isBlankLine line = false) ↔
      ∀ line, ls.find? (fun line => !isIndentLine line) = some line → isBlankLine line = false := by
  induction h with
  | nil => rfl
  | @cons line shorter ls shorters halike _ ih =>
    simp only [List.find?_cons, halike.1]
    cases isIndentLine line with
    | true => exact ih
    | false => simp [halike.2]

theorem solidEnds_alike {ls shorter : List (List Char)} (h : List.Forall₂ Alike ls shorter) :
    SolidEnds shorter ↔ SolidEnds ls := by
  simp only [SolidEnds, or_imp, forall_and, List.findRev?_eq_find?_reverse]
  rw [find?_alike h, find?_alike (List.rel_reverse h)]

/-- Text without line feeds in its lines is cut into them again; no line at all is no text. -/
def linesOf (text : List Char) : List (List Char) :=
  if text = [] then [] else text.splitOn '\n'

theorem linesOf_intercalate {ls : List (List Char)} (hlines : ∀ line ∈ ls, '\n' ∉ line) (hls : ls ≠ [[]]) :
    linesOf (['\n'].intercalate ls) = ls := by
  by_cases hnil : ls = []
  · rw [hnil]
    rfl
  · have hsplit := List.splitOn_intercalate '\n' hlines hnil
    have htext : ['\n'].intercalate ls ≠ [] := by
      intro htext
      rw [htext, List.splitOn_nil] at hsplit
      exact hls hsplit.symm
    rw [linesOf, if_neg htext, hsplit]

theorem trimEnds_ne {blank : List Char → Bool} (hblank : blank [] = true) (ls : List (List Char)) :
    trimEnds blank ls ≠ [[]] := by
  intro hkept
  obtain ⟨-, -, -, -, hends⟩ := trimmed_trimEnds blank ls
  rw [hends [] (Or.inl (by rw [hkept]; rfl))] at hblank
  cases hblank

theorem not_mem_trimEnds {blank : List Char → Bool} {ls : List (List Char)} (h : ∀ line ∈ ls, '\n' ∉ line) :
    ∀ line ∈ trimEnds blank ls, '\n' ∉ line := by
  obtain ⟨front, back, hls, -⟩ := trimmed_trimEnds blank ls
  intro line hline
  exact h line (by rw [hls]; simp [hline])

theorem not_mem_dedent {ls : List (List Char)} (h : ∀ line ∈ ls, '\n' ∉ line) : ∀ line ∈ dedent ls, '\n' ∉ line := by
  cases ls with
  | nil => exact h
  | cons first rest =>
    obtain ⟨hfirst, hrest⟩ := List.forall_mem_cons.mp h
    refine List.forall_mem_cons.mpr ⟨hfirst, List.forall_mem_map.mpr fun line hline hmem => ?_⟩
    exact hrest line hline (List.mem_of_mem_drop hmem)

theorem trimEnds_eq_iff (ls : List (List Char)) :
    trimEnds isBlankLine ls = trimEnds isIndentLine ls ↔ SolidEnds ls := by
  have hkept := trimmed_trimEnds isIndentLine ls
  rw [SolidEnds, ← hkept.head?, ← hkept.getLast?, eq_comm, ← trimmed_iff]
  constructor
  · rintro ⟨-, -, -, -, hends⟩
    exact hends
  · obtain ⟨front, back, hls, hindent, -⟩ := hkept
    exact fun hends => ⟨front, back, hls, fun line hline => isBlankLine_of_isIndentLine (hindent line hline), hends⟩

/-- A block string stands for the text that the rules give with lines of any blanks taken for blank. This is the
text of the rules with lines of spaces and tabs exactly if the first and the last line with more than spaces and
tabs hold more than blanks. -/
theorem value_rules (raw : List Char) :
    (∀ blank, ∃! text, Rules blank raw text) ∧ Rules isBlankLine raw (value raw) ∧
    (Rules isIndentLine raw (value raw) ↔ ∀ ls, CutLines raw ls → SolidEnds ls) := by
  have hlines : ∀ line ∈ dedent (lines raw), '\n' ∉ line := by
    refine not_mem_dedent fun line hline hmem => ?_
    exact absurd ((cutLines_lines raw).plain line hline '\n' hmem) (by decide)
  have hvalue : value raw = ['\n'].intercalate (trimEnds isBlankLine (dedent (lines raw))) := rfl
  refine ⟨fun blank => ⟨_, rules_iff.mpr rfl, fun text => rules_iff.mp⟩, rules_iff.mpr hvalue, ?_⟩
  have hjoin : value raw = ['\n'].intercalate (trimEnds isIndentLine (dedent (lines raw))) ↔
      trimEnds isBlankLine (dedent (lines raw)) = trimEnds isIndentLine (dedent (lines raw)) := by
    refine ⟨fun htext => ?_, fun hkept => by rw [hvalue, hkept]⟩
    have hread := congrArg linesOf htext
    rwa [hvalue, linesOf_intercalate (not_mem_trimEnds hlines) (trimEnds_ne rfl _),
      linesOf_intercalate (not_mem_trimEnds hlines) (trimEnds_ne rfl _)] at hread
  rw [rules_iff, hjoin, trimEnds_eq_iff, solidEnds_alike (alike_dedent _)]
  simp only [cutLines_iff, forall_eq]

/-- A line that holds one no-break space is dropped, which the rules with spaces and tabs keep. -/
theorem value_blank_line :
    value "\u00a0\na".toList = "a".toList ∧ Rules isIndentLine "\u00a0\na".toList "\u00a0\na".toList ∧
      ¬ Rules isIndentLine "\u00a0\na".toList (value "\u00a0\na".toList) := by
  have hrules : ∀ text, Rules isIndentLine "\u00a0\na".toList text ↔ text = "\u00a0\na".toList := by
    intro text
    rw [rules_iff]
    rfl
  have hvalue : value "\u00a0\na".toList = "a".toList := by decide
  refine ⟨hvalue, (hrules _).mpr rfl, ?_⟩
  rw [hrules, hvalue]
  decide

end SchemaModels.BlockString
