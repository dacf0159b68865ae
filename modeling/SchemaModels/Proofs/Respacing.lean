import SchemaModels.Proofs.Layout
import SchemaModels.Proofs.RoundTrip

/-! Sources that differ in their gaps only. The texts of the tokens of a source, written again with other
runs of blanks, commas and comments around them, are the same tokens; as long as no two of them touch it
does not matter which runs. The parser sees tokens only, so both sources spell one document, or both are
refused for the same reason, at places of their own. -/

namespace SchemaModels
set_option autoImplicit false

/-! ## Ignorable runs -/

/-- A run of ignored characters and comments, each comment with the line end that closes it. -/
inductive Ignorable : List Char → Prop
  | nil : Ignorable []
  | ignored {c : Char} {run : List Char} : isIgnored c = true → Ignorable run → Ignorable (c :: run)
  | comment {c : Char} {text run : List Char} : (∀ x ∈ text, isLineEnd x = false) → isLineEnd c = true →
    Ignorable run → Ignorable ('#' :: text ++ c :: run)

/-- The same at the end of a source, where the last comment may be left open. -/
def IgnorableAtEnd (run : List Char) : Prop :=
  Ignorable run ∨ ∃ front text, run = front ++ '#' :: text ∧ Ignorable front ∧ ∀ x ∈ text, isLineEnd x = false

theorem Ignorable.gap_append {run gap rest : List Char} (h : Ignorable run) (hgap : Gap gap rest) :
    Gap (run ++ gap) rest := by
  induction h with
  | nil => exact hgap
  | ignored hc _ ih => exact .ignored hc ih
  | @comment c text run htext hc _ ih =>
    have hcut : '#' :: text ++ c :: run ++ gap = '#' :: text ++ (c :: (run ++ gap)) := by simp
    rw [hcut]
    refine .comment htext ?_ (.ignored (isIgnored_of_isLineEnd hc) ih)
    intro x hx
    cases hx
    exact hc

theorem Ignorable.gap {run : List Char} (h : Ignorable run) (rest : List Char) : Gap run rest := by
  simpa using h.gap_append (.nil : Gap [] rest)

theorem IgnorableAtEnd.gap {run : List Char} (h : IgnorableAtEnd run) : Gap run [] := by
  rcases h with h | ⟨front, text, rfl, hfront, htext⟩
  · exact h.gap []
  · have hopen : Gap ('#' :: text ++ []) [] := .comment htext nofun .nil
    rw [List.append_nil] at hopen
    exact hfront.gap_append hopen

theorem Gap.atGap {gap rest : List Char} (h : Gap gap rest) (hne : gap ≠ []) (more : List Char) :
    AtGap (gap ++ more) := by
  cases h with
  | nil => exact absurd rfl hne
  | ignored hc _ =>
    intro x hx
    cases hx
    exact Or.inl hc
  | comment _ _ _ =>
    intro x hx
    cases hx
    exact Or.inr rfl

/-! ## Spaced texts -/

/-- Texts of which each stands behind an ignorable run that is not empty, and a run behind them all. -/
inductive SpacedBehind : List (List Char) → List Char → Prop
  | nil {last : List Char} : IgnorableAtEnd last → SpacedBehind [] last
  | cons {gap text rest : List Char} {texts : List (List Char)} : Ignorable gap → gap ≠ [] →
    SpacedBehind texts rest → SpacedBehind (text :: texts) (gap ++ text ++ rest)

/-- Texts with ignorable runs before, between and behind them, of which those between are not empty. -/
def Spaced (source : List Char) : List (List Char) → Prop
  | [] => IgnorableAtEnd source
  | text :: texts => ∃ first rest, source = first ++ text ++ rest ∧ Ignorable first ∧ SpacedBehind texts rest

theorem SpacedBehind.atGap {texts : List (List Char)} {rest : List Char} (h : SpacedBehind texts rest) : AtGap rest := by
  cases h with
  | nil hlast =>
    cases rest with
    | nil => exact atGap_nil
    | cons c rest => simpa using hlast.gap.atGap (List.cons_ne_nil _ _) []
  | cons hgap hne _ =>
    rw [List.append_assoc]
    exact (hgap.gap []).atGap hne _

namespace Piece

/-- The token and the text of a piece, without the gap. -/
def spelled (p : Piece) : Token × List Char :=
  (p.token, p.text)

theorem exists_spaced {row : List (Token × List Char)} (hrow : ∀ p ∈ row, p.1.Spells p.2) {rest : List Char}
    (h : SpacedBehind (row.map Prod.snd) rest) :
    ∃ (pieces : List Piece) (last : List Char), rest = allChars pieces ++ last ∧ Lawful pieces last ∧ Gap last [] ∧
      pieces.map spelled = row := by
  induction row generalizing rest with
  | nil =>
    cases h with
    | nil hlast => exact ⟨[], rest, rfl, trivial, hlast.gap, rfl⟩
  | cons p row ih =>
    obtain ⟨hp, hmore⟩ := List.forall_mem_cons.mp hrow
    cases h with
    | @cons gap _ rest _ hgap hne hrest =>
      obtain ⟨pieces, last, rfl, hlawful, hlast, hpieces⟩ := ih hmore hrest
      -- What follows the text begins with a gap, and there it spells its token.
      refine ⟨⟨gap, p.2, p.1⟩ :: pieces, last, ?_, ⟨hgap.gap _, ?_, hlawful⟩, hlast, ?_⟩
      · simp [allChars]
      · exact Reading.ofChars_tokenAt (hp _ hrest.atGap)
      · rw [List.map_cons, hpieces]
        rfl

theorem lexemes_spelled (offset : Nat) (pieces : List Piece) :
    (lexemes offset pieces).map (fun l => (l.token, l.text.toList)) = pieces.map spelled := by
  induction pieces generalizing offset with
  | nil => rfl
  | cons p ps ih =>
    rw [lexemes, List.map_cons, ih, String.toList_ofList]
    rfl

end Piece

theorem Layout.exists_spaced {row : List (Token × List Char)} (hrow : ∀ p ∈ row, p.1.Spells p.2) {source : List Char}
    (h : Spaced source (row.map Prod.snd)) :
    ∃ layout : Layout, layout.Of source ∧ layout.pieces.map Piece.spelled = row := by
  cases row with
  | nil => exact ⟨⟨[], source⟩, ⟨rfl, trivial, h.gap⟩, rfl⟩
  | cons p row =>
    obtain ⟨hp, hmore⟩ := List.forall_mem_cons.mp hrow
    obtain ⟨first, rest, rfl, hfirst, hrest⟩ := h
    obtain ⟨pieces, last, rfl, hlawful, hlast, hpieces⟩ := Piece.exists_spaced hmore hrest
    refine ⟨⟨⟨first, p.2, p.1⟩ :: pieces, last⟩, ⟨?_, ⟨hfirst.gap _, ?_, hlawful⟩, hlast⟩, ?_⟩
    · simp [Piece.allChars]
    · exact Reading.ofChars_tokenAt (hp _ hrest.atGap)
    · rw [List.map_cons, hpieces]
      rfl

/-- The texts of tokens, spaced otherwise, are the texts of the same tokens. -/
theorem tokenize_spaced {source other : List Char} {lexemes : List Lexeme} (h : tokenize source = .ok lexemes)
    (hother : Spaced other (lexemes.map fun l => l.text.toList)) :
    ∃ layout : Layout, layout.Of other ∧
      layout.lexemes.map (fun l => (l.token, l.text)) = lexemes.map fun l => (l.token, l.text) := by
  obtain ⟨layout, hlayout, rfl⟩ := exists_layout_of_tokenize h
  have hrow : ∀ p ∈ layout.lexemes.map fun l => (l.token, l.text.toList), p.1.Spells p.2 :=
    List.forall_mem_map.mpr fun l hl => hlayout.lexemes_spells hl
  obtain ⟨spaced, hspaced, hpieces⟩ := Layout.exists_spaced hrow (by simpa [Function.comp_def] using hother)
  refine ⟨spaced, hspaced, ?_⟩
  have hsame : spaced.lexemes.map (fun l => (l.token, l.text.toList)) =
      layout.lexemes.map fun l => (l.token, l.text.toList) :=
    (Piece.lexemes_spelled 0 spaced.pieces).trans hpieces
  have htext := congrArg (List.map fun p => (p.1, String.ofList p.2)) hsame
  simpa [Function.comp_def] using htext

/-! ## Refusals -/

namespace ParseError

/-- The same refusal at another place. -/
def moveTo (position : Position) : ParseError → ParseError
  | unexpectedCharacter text _ => unexpectedCharacter text position
  | unexpectedToken expected found _ => unexpectedToken expected found position
  | unexpectedEnd expected => unexpectedEnd expected
  | unsupportedDefinition keyword _ => unsupportedDefinition keyword position
  | nestingTooDeep _ => nestingTooDeep position

/-- Which refusal a fault gives is told by the texts of the tokens; only its place hangs on the source. -/
theorem ofFault_moveTo (source other : List Char) {lexemes others : List Lexeme}
    (h : others.map Lexeme.text = lexemes.map Lexeme.text) (fault : Fault) :
    ∃ position, ofFault other others fault = (ofFault source lexemes fault).moveTo position := by
  have hlength : others.length = lexemes.length := by simpa using congrArg List.length h
  have hunread : (others.drop (others.length - fault.unread.length)).map Lexeme.text =
      (lexemes.drop (lexemes.length - fault.unread.length)).map Lexeme.text := by
    rw [List.map_drop, List.map_drop, h, hlength]
  unfold ofFault
  generalize others.drop (others.length - fault.unread.length) = unread at hunread
  generalize lexemes.drop (lexemes.length - fault.unread.length) = unread' at hunread
  cases unread with
  | nil =>
    cases unread' with
    | nil => exact ⟨Position.ofOffset other (byteLength other), by cases fault.cause <;> rfl⟩
    | cons l' ls' => cases hunread
  | cons l ls =>
    cases unread' with
    | nil => cases hunread
    | cons l' ls' =>
      have htext : l.text = l'.text := (List.cons.inj hunread).1
      exact ⟨Position.ofOffset other l.start, by cases fault.cause <;> simp [moveTo, htext]⟩

end ParseError

/-- The tokens of a source, spaced otherwise, are read as the same tokens at their new places, and both
sources spell one document or are refused alike. -/
theorem Document.ofChars_spaced {source other : List Char} {lexemes : List Lexeme}
    (htokens : tokenize source = .ok lexemes) (hother : Spaced other (lexemes.map fun l => l.text.toList)) :
    ∃ others : List Lexeme, tokenize other = .ok others ∧
      others.map (fun l => (l.token, l.text)) = lexemes.map (fun l => (l.token, l.text)) ∧
      (∀ l ∈ others, l.SpansIn other) ∧ (others.Pairwise fun a b => a.stop ≤ b.start) ∧
      ((∃ doc, Document.ofChars source = .ok doc ∧ Document.ofChars other = .ok doc) ∨
        ∃ error position, Document.ofChars source = .error error ∧
          Document.ofChars other = .error (error.moveTo position)) := by
  obtain ⟨layout, hlayout, hsame⟩ := tokenize_spaced htokens hother
  have hothers := hlayout.tokenize_eq
  refine ⟨layout.lexemes, hothers, hsame, fun l hl => hlayout.lexemes_span hl, Piece.lexemes_pairwise 0 _, ?_⟩
  have htoken : layout.lexemes.map Lexeme.token = lexemes.map Lexeme.token := by
    simpa [Function.comp_def] using congrArg (List.map Prod.fst) hsame
  have htext : layout.lexemes.map Lexeme.text = lexemes.map Lexeme.text := by
    simpa [Function.comp_def] using congrArg (List.map Prod.snd) hsame
  rw [Document.ofChars_of_tokenize htokens, Document.ofChars_of_tokenize hothers, htoken]
  cases Grammar.document maxNesting (lexemes.map Lexeme.token) with
  | ok doc => exact Or.inl ⟨doc, rfl, rfl⟩
  | error fault =>
    obtain ⟨position, hmoved⟩ := ParseError.ofFault_moveTo source other htext fault
    exact Or.inr ⟨_, position, rfl, congrArg Except.error hmoved⟩

/-- A brace that touches a name, set apart from it, and comments at both ends. -/
theorem Document.ofChars_spaced_brace :
    Document.ofChars "scalar A\x7b".toList = .error (.unsupportedDefinition "\x7b" ⟨1, 9⟩) ∧
      Spaced "# c\nscalar,A\r\x7b#".toList ["scalar".toList, "A".toList, "\x7b".toList] ∧
      ∃ position, Document.ofChars "# c\nscalar,A\r\x7b#".toList = .error (.unsupportedDefinition "\x7b" position) := by
  have htokens : tokenize "scalar A\x7b".toList =
      .ok [⟨.name "scalar", "scalar", 0, 6⟩, ⟨.name "A", "A", 7, 8⟩, ⟨.braceOpen, "\x7b", 8, 9⟩] := by decide +kernel
  have hrefused : Document.ofChars "scalar A\x7b".toList = .error (.unsupportedDefinition "\x7b" ⟨1, 9⟩) :=
    (Document.ofChars_of_tokenize htokens).trans rfl
  have hspaced : Spaced "# c\nscalar,A\r\x7b#".toList ["scalar".toList, "A".toList, "\x7b".toList] := by
    have hfirst : Ignorable ('#' :: [' ', 'c'] ++ '\n' :: []) :=
      .comment (List.forall_mem_cons.mpr ⟨rfl, List.forall_mem_singleton.mpr rfl⟩) rfl .nil
    have hlast : IgnorableAtEnd ['#'] := Or.inr ⟨[], [], rfl, .nil, List.forall_mem_nil _⟩
    exact ⟨"# c\n".toList, ",A\r\x7b#".toList, rfl, hfirst, .cons (.ignored rfl .nil) (List.cons_ne_nil _ _)
      (.cons (.ignored rfl .nil) (List.cons_ne_nil _ _) (.nil hlast))⟩
  refine ⟨hrefused, hspaced, ?_⟩
  obtain ⟨others, -, -, -, -, hboth⟩ := Document.ofChars_spaced htokens hspaced
  rcases hboth with ⟨doc, hdoc, -⟩ | ⟨error, position, herror, hmoved⟩
  · cases hrefused.symm.trans hdoc
  · cases hrefused.symm.trans herror
    exact ⟨position, hmoved⟩

end SchemaModels
