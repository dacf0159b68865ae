import SchemaModels.Schema.Source
import SchemaModels.Proofs.TokenRules

/-! Layouts: a source cut into gaps and tokens. A gap is a run of ignored characters and comments, and each
token is the one that the rules give for all that follows it. A source has at most one layout; scanning
finds it, with the byte offsets of its tokens, or stops at the first place where no rule applies. -/

namespace SchemaModels
set_option autoImplicit false

/-! ## Gaps -/

/-- Ignored characters and comments before `rest`; a comment goes on to the end of its line. -/
inductive Gap : List Char → List Char → Prop
  | nil {rest : List Char} : Gap [] rest
  | ignored {c : Char} {gap rest : List Char} : isIgnored c = true → Gap gap rest → Gap (c :: gap) rest
  | comment {text gap rest : List Char} : (∀ c ∈ text, isLineEnd c = false) →
    (∀ c, (gap ++ rest).head? = some c → isLineEnd c = true) → Gap gap rest → Gap ('#' :: text ++ gap) rest

/-- No gap goes on here. -/
def OffGap (rest : List Char) : Prop :=
  ∀ c, rest.head? = some c → isIgnored c = false ∧ c ≠ '#'

theorem offGap_nil : OffGap [] := by
  intro c hc
  cases hc

theorem isIgnored_of_isLineEnd {c : Char} (h : isLineEnd c = true) : isIgnored c = true := by
  simp only [isLineEnd, Bool.or_eq_true, decide_eq_true_eq] at h
  rcases h with rfl | rfl <;> rfl

theorem splitGap_lineEnd {cs : List Char} (h : ∀ c, cs.head? = some c → isLineEnd c = true) :
    splitGap true cs = splitGap false cs := by
  cases cs with
  | nil => rfl
  | cons c cs =>
    have hc := h c rfl
    simp only [isLineEnd, Bool.or_eq_true, decide_eq_true_eq] at hc
    rcases hc with rfl | rfl <;> rfl

theorem splitGap_comment {text : List Char} (h : ∀ c ∈ text, isLineEnd c = false) (tail : List Char) :
    splitGap true (text ++ tail) = (text ++ (splitGap true tail).1, (splitGap true tail).2) := by
  induction text with
  | nil => rfl
  | cons c text ih =>
    obtain ⟨hc, htext⟩ := List.forall_mem_cons.mp h
    simp [splitGap, hc, ih htext]

theorem Gap.splitGap_eq {gap rest : List Char} (h : Gap gap rest) (hrest : OffGap rest) :
    splitGap false (gap ++ rest) = (gap, rest) := by
  induction h with
  | @nil rest =>
    cases rest with
    | nil => rfl
    | cons c rest =>
      obtain ⟨hc, hhash⟩ := hrest c rfl
      simp [splitGap, hc, hhash]
  | @ignored c gap rest hc _ ih =>
    have hhash : c ≠ '#' := by
      rintro rfl
      cases hc
    simp [splitGap, hc, hhash, ih hrest]
  | @comment text gap rest htext hend _ ih =>
    have hstep : splitGap false ('#' :: text ++ gap ++ rest) =
        ('#' :: (splitGap true (text ++ (gap ++ rest))).1, (splitGap true (text ++ (gap ++ rest))).2) := by
      simp [splitGap]
    rw [hstep, splitGap_comment htext, splitGap_lineEnd hend, ih hrest]
    rfl

/-- What is split off inside a comment: the end of the comment and a gap. -/
def CommentEnd (front rest : List Char) : Prop :=
  ∃ text gap, front = text ++ gap ∧ (∀ c ∈ text, isLineEnd c = false) ∧
    (∀ c, (gap ++ rest).head? = some c → isLineEnd c = true) ∧ Gap gap rest

theorem splitGap_gap (comment : Bool) (cs : List Char) :
    OffGap (splitGap comment cs).2 ∧
      if comment then CommentEnd (splitGap comment cs).1 (splitGap comment cs).2
      else Gap (splitGap comment cs).1 (splitGap comment cs).2 := by
  fun_induction splitGap comment cs with
  | case1 comment =>
    refine ⟨offGap_nil, ?_⟩
    cases comment with
    | true => exact ⟨[], [], rfl, List.forall_mem_nil _, fun c hc => absurd hc (Option.some_ne_none c).symm, .nil⟩
    | false => exact .nil
  | case2 c cs r ih =>
    refine ⟨ih.1, ?_⟩
    have hgap := ih.2
    cases hc : isLineEnd c with
    | true =>
      rw [hc] at hgap
      refine ⟨[], c :: r.1, rfl, List.forall_mem_nil _, fun x hx => ?_,
        .ignored (isIgnored_of_isLineEnd hc) (by simpa [r, hc] using hgap)⟩
      cases hx
      exact hc
    | false =>
      simp only [hc, Bool.not_false, if_true] at hgap
      obtain ⟨text, gap, hfront, htext, hend, hrest⟩ := hgap
      refine ⟨c :: text, gap, ?_, List.forall_mem_cons.mpr ⟨hc, htext⟩, ?_, ?_⟩
      · simp [r, hc, hfront]
      · simpa [r, hc] using hend
      · simpa [r, hc] using hrest
  | case3 c cs hc r ih =>
    refine ⟨ih.1, ?_⟩
    have hgap := ih.2
    by_cases hhash : c = '#'
    · subst hhash
      obtain ⟨text, gap, hfront, htext, hend, hrest⟩ := hgap
      show Gap ('#' :: r.1) r.2
      rw [hfront]
      exact .comment htext hend hrest
    · have hignored : isIgnored c = true := by simpa [hhash] using hc
      exact .ignored hignored (by simpa [r, hhash] using hgap)
  | case4 c cs hc =>
    refine ⟨fun x hx => ?_, .nil⟩
    cases hx
    simpa using hc

/-! ## Layouts -/

/-- A token and the gap before it. -/
structure Piece where
  gap : List Char
  text : List Char
  token : Token

namespace Piece

def allChars (pieces : List Piece) : List Char :=
  pieces.flatMap fun p => p.gap ++ p.text

/-- Every piece stands as gap and token before all that follows it, up to the end of `rest`. -/
def Lawful : List Piece → List Char → Prop
  | [], _ => True
  | p :: ps, rest =>
    Gap p.gap (p.text ++ (allChars ps ++ rest)) ∧ TokenAt (p.text ++ (allChars ps ++ rest)) p.token p.text ∧
      Lawful ps rest

/-- The lexemes of pieces that start at a byte offset. -/
def lexemes (offset : Nat) : List Piece → List Lexeme
  | [] => []
  | p :: ps =>
    let start := offset + byteLength p.gap
    let stop := start + byteLength p.text
    ⟨p.token, String.ofList p.text, start, stop⟩ :: lexemes stop ps

end Piece

/-- All pieces of a source and the gap behind them. -/
structure Layout where
  pieces : List Piece
  last : List Char

namespace Layout

structure Of (layout : Layout) (source : List Char) : Prop where
  chars : Piece.allChars layout.pieces ++ layout.last = source
  lawful : Piece.Lawful layout.pieces layout.last
  last : Gap layout.last []

def lexemes (layout : Layout) : List Lexeme :=
  Piece.lexemes 0 layout.pieces

end Layout

/-- After pieces and a gap comes a text at which neither a gap nor a token starts. -/
def StuckAt (source : List Char) (offset : Nat) : Prop :=
  ∃ pieces gap rest, source = Piece.allChars pieces ++ (gap ++ rest) ∧ Piece.Lawful pieces (gap ++ rest) ∧
    Gap gap rest ∧ OffGap rest ∧ rest ≠ [] ∧ (∀ t text, ¬ TokenAt rest t text) ∧
      offset = byteLength (Piece.allChars pieces ++ gap)

/-! ## Scanning finds the layout -/

theorem byteLength_append (as bs : List Char) : byteLength (as ++ bs) = byteLength as + byteLength bs := by
  induction as with
  | nil => simp [byteLength]
  | cons a as ih =>
    simp only [byteLength, List.cons_append, List.foldr_cons] at ih ⊢
    omega

theorem TokenAt.offGap {cs text : List Char} {t : Token} (h : TokenAt cs t text) : OffGap cs := by
  obtain ⟨r, hr⟩ := Reading.ofChars_of_tokenAt h
  have hsplit := splitGap_of_read hr
  have hoff := (splitGap_gap false cs).1
  rwa [hsplit] at hoff

namespace Piece

/-- Scanning reads lawful pieces one after another. -/
theorem Lawful.scanFrom_eq {pieces : List Piece} {rest : List Char} (h : Lawful pieces rest) (found : List Lexeme)
    (offset : Nat) :
    Lexeme.scanFrom found offset (allChars pieces ++ rest) =
      Lexeme.scanFrom ((lexemes offset pieces).reverse ++ found) (offset + byteLength (allChars pieces)) rest := by
  induction pieces generalizing found offset with
  | nil => simp [allChars, lexemes, byteLength]
  | cons p ps ih =>
    obtain ⟨hgap, htoken, hrest⟩ := h
    have hsplit := hgap.splitGap_eq htoken.offGap
    have hread := (Reading.ofChars_eq_ok_iff (r := ⟨p.token, p.text, allChars ps ++ rest⟩)).mpr ⟨htoken, rfl⟩
    have hchars : allChars (p :: ps) ++ rest = p.gap ++ (p.text ++ (allChars ps ++ rest)) := by
      simp [allChars]
    have hbytes : byteLength (allChars (p :: ps)) =
        byteLength p.gap + byteLength p.text + byteLength (allChars ps) := by
      simp only [allChars, List.flatMap_cons, byteLength_append]
    rw [hchars, Lexeme.scanFrom_step found offset hsplit hread, ih hrest, hbytes]
    simp [lexemes, Nat.add_assoc]

end Piece

theorem exists_gap (cs : List Char) : ∃ gap rest, gap ++ rest = cs ∧ Gap gap rest ∧ OffGap rest := by
  obtain ⟨hoff, hgap⟩ := splitGap_gap false cs
  exact ⟨_, _, splitGap_append false cs, hgap, hoff⟩

/-- Every text begins with lawful pieces and a gap, behind which it ends or no rule applies. -/
theorem exists_pieces (cs : List Char) :
    ∃ pieces gap rest, Piece.allChars pieces ++ (gap ++ rest) = cs ∧ Piece.Lawful pieces (gap ++ rest) ∧
      Gap gap rest ∧ OffGap rest ∧ ∀ t text, ¬ TokenAt rest t text := by
  induction hlength : cs.length using Nat.strong_induction_on generalizing cs with
  | _ n ih =>
    obtain ⟨gap, rest, rfl, hgap, hoff⟩ := exists_gap cs
    cases hread : Reading.ofChars rest with
    | error text =>
      refine ⟨[], gap, rest, rfl, trivial, hgap, hoff, fun t text htoken => ?_⟩
      obtain ⟨r, hr⟩ := Reading.ofChars_of_tokenAt htoken
      cases hread.symm.trans hr
    | ok r =>
      obtain ⟨htoken, htext⟩ := Reading.ofChars_eq_ok_iff.mp hread
      have hshort := Reading.length_rest_lt hread
      rw [List.length_append] at hlength
      obtain ⟨pieces, gap', rest', hchars, hlawful, hrest⟩ := ih r.rest.length (by omega) r.rest rfl
      rw [← hchars] at htext
      refine ⟨⟨gap, r.text, r.token⟩ :: pieces, gap', rest', ?_, ⟨?_, ?_, hlawful⟩, hrest⟩
      · simp [← htext, Piece.allChars]
      · rwa [htext]
      · rwa [htext]

theorem exists_layout_or_stuck (source : List Char) :
    (∃ layout : Layout, layout.Of source) ∨ ∃ offset, StuckAt source offset := by
  obtain ⟨pieces, gap, rest, hchars, hlawful, hgap, hoff, hnone⟩ := exists_pieces source
  cases rest with
  | nil =>
    rw [List.append_nil] at hchars hlawful
    exact Or.inl ⟨⟨pieces, gap⟩, hchars, hlawful, hgap⟩
  | cons c rest =>
    exact Or.inr ⟨_, pieces, gap, c :: rest, hchars.symm, hlawful, hgap, hoff, List.cons_ne_nil _ _, hnone, rfl⟩

theorem Layout.Of.scan_eq {layout : Layout} {source : List Char} (h : layout.Of source) :
    Lexeme.scan source = .ok layout.lexemes := by
  have hlast : splitGap false layout.last = (layout.last, []) := by
    simpa using h.last.splitGap_eq offGap_nil
  rw [Lexeme.scan, ← h.chars, h.lawful.scanFrom_eq, Lexeme.scanFrom_end _ _ hlast]
  simp [lexemes]

theorem StuckAt.scan_eq {source : List Char} {offset : Nat} (h : StuckAt source offset) :
    ∃ text, Lexeme.scan source = .error ⟨text, offset⟩ := by
  obtain ⟨pieces, gap, rest, rfl, hlawful, hgap, hoff, hne, hnone, rfl⟩ := h
  cases hread : Reading.ofChars rest with
  | ok r => exact absurd (Reading.ofChars_tokenAt hread) (hnone _ _)
  | error text =>
    refine ⟨String.ofList text, ?_⟩
    rw [Lexeme.scan, hlawful.scanFrom_eq, Lexeme.scanFrom_unreadable _ _ (hgap.splitGap_eq hoff) hne hread,
      byteLength_append, Nat.zero_add]

theorem StuckAt.unique {source : List Char} {one other : Nat} (h : StuckAt source one) (h' : StuckAt source other) :
    one = other := by
  obtain ⟨text, hscan⟩ := h.scan_eq
  obtain ⟨text', hscan'⟩ := h'.scan_eq
  have hsame := Except.error.inj (hscan.symm.trans hscan')
  exact congrArg Unreadable.offset hsame

/-! ## There is one layout at most -/

theorem TokenAt.text_ne_nil {cs text : List Char} {t : Token} (h : TokenAt cs t text) : text ≠ [] := by
  obtain ⟨r, hr⟩ := Reading.ofChars_of_tokenAt h
  obtain ⟨-, rfl⟩ := h.unique (Reading.ofChars_tokenAt hr)
  exact (Reading.ofChars_append hr).2

/-- A gap goes on until a token or the end, so two gaps at the start of a text are one. -/
theorem Gap.unique {gap gap' rest rest' : List Char} (h : Gap gap rest) (h' : Gap gap' rest')
    (hrest : OffGap rest) (hrest' : OffGap rest') (he : gap ++ rest = gap' ++ rest') : gap = gap' ∧ rest = rest' := by
  have hsplit := h.splitGap_eq hrest
  rw [he, h'.splitGap_eq hrest'] at hsplit
  obtain ⟨hgap, hrest⟩ := Prod.mk.inj hsplit
  exact ⟨hgap.symm, hrest.symm⟩

theorem Piece.Lawful.unique {ps qs : List Piece} {last last' : List Char} (h : Lawful ps last) (h' : Lawful qs last')
    (hlast : Gap last []) (hlast' : Gap last' []) (he : allChars ps ++ last = allChars qs ++ last') :
    ps = qs ∧ last = last' := by
  induction ps generalizing qs with
  | nil =>
    cases qs with
    | nil => exact ⟨rfl, he⟩
    | cons q qs =>
      obtain ⟨hgap, htoken, -⟩ := h'
      have hone := hlast.unique hgap offGap_nil htoken.offGap (by simpa [allChars] using he)
      exact absurd (List.append_eq_nil_iff.mp hone.2.symm).1 htoken.text_ne_nil
  | cons p ps ih =>
    obtain ⟨hgap, htoken, hrest⟩ := h
    cases qs with
    | nil =>
      have hone := hlast'.unique hgap offGap_nil htoken.offGap (by simpa [allChars] using he.symm)
      exact absurd (List.append_eq_nil_iff.mp hone.2.symm).1 htoken.text_ne_nil
    | cons q qs =>
      obtain ⟨hgap', htoken', hrest'⟩ := h'
      have hone := hgap.unique hgap' htoken.offGap htoken'.offGap (by simpa [allChars] using he)
      rw [hone.2] at htoken
      obtain ⟨htokens, htexts⟩ := htoken.unique htoken'
      have hafter := hone.2
      rw [htexts] at hafter
      obtain ⟨rfl, rfl⟩ := ih hrest hrest' (List.append_cancel_left hafter)
      cases p
      cases q
      simp_all

theorem Layout.Of.unique {one other : Layout} {source : List Char} (h : one.Of source) (h' : other.Of source) :
    one = other := by
  obtain ⟨hpieces, hlast⟩ := h.lawful.unique h'.lawful h.last h'.last (h.chars.trans h'.chars.symm)
  cases one
  cases other
  simp_all

/-! ## Spans -/

/-- A lexeme's offsets are those of the ends of its text in a source. -/
def Lexeme.SpansIn (l : Lexeme) (source : List Char) : Prop :=
  ∃ before after, source = before ++ l.text.toList ++ after ∧ l.text.toList ≠ [] ∧
    l.start = byteLength before ∧ l.stop = byteLength (before ++ l.text.toList)

namespace Piece

theorem lexemes_span {pieces : List Piece} {rest : List Char} (h : Lawful pieces rest) (front : List Char)
    {l : Lexeme} (hl : l ∈ lexemes (byteLength front) pieces) : l.SpansIn (front ++ (allChars pieces ++ rest)) := by
  induction pieces generalizing front with
  | nil => cases hl
  | cons p ps ih =>
    obtain ⟨-, htoken, hrest⟩ := h
    rcases List.mem_cons.mp hl with rfl | hl
    · refine ⟨front ++ p.gap, allChars ps ++ rest, ?_, ?_, ?_, ?_⟩
      · simp [allChars]
      · simpa using htoken.text_ne_nil
      · exact (byteLength_append front p.gap).symm
      · simp [byteLength_append, Nat.add_assoc]
    · have hoffset : byteLength front + byteLength p.gap + byteLength p.text =
          byteLength (front ++ p.gap ++ p.text) := by
        simp only [byteLength_append]
      rw [hoffset] at hl
      have hspan := ih hrest (front ++ p.gap ++ p.text) hl
      simpa [allChars] using hspan

theorem lexemes_spells {pieces : List Piece} {rest : List Char} (h : Lawful pieces rest) {offset : Nat} {l : Lexeme}
    (hl : l ∈ lexemes offset pieces) : l.token.Spells l.text.toList := by
  induction pieces generalizing offset with
  | nil => cases hl
  | cons p ps ih =>
    obtain ⟨-, htoken, hrest⟩ := h
    rcases List.mem_cons.mp hl with rfl | hl
    · simpa using htoken.spells
    · exact ih hrest hl

theorem lexemes_start_le {pieces : List Piece} {offset : Nat} {l : Lexeme} (hl : l ∈ lexemes offset pieces) :
    offset ≤ l.start := by
  induction pieces generalizing offset with
  | nil => cases hl
  | cons p ps ih =>
    rcases List.mem_cons.mp hl with rfl | hl
    · exact Nat.le_add_right _ _
    · have hle := ih hl
      omega

theorem lexemes_pairwise (offset : Nat) (pieces : List Piece) :
    (lexemes offset pieces).Pairwise fun a b => a.stop ≤ b.start := by
  induction pieces generalizing offset with
  | nil => exact .nil
  | cons p ps ih => exact .cons (fun _ hl => lexemes_start_le hl) (ih _)

end Piece

/-! ## Tokenizing -/

theorem Layout.Of.tokenize_eq {layout : Layout} {source : List Char} (h : layout.Of source) :
    tokenize source = .ok layout.lexemes := by
  rw [tokenize, h.scan_eq]
  rfl

theorem StuckAt.tokenize_eq {source : List Char} {offset : Nat} (h : StuckAt source offset) :
    ∃ found, tokenize source = .error (.unexpectedCharacter found (Position.ofOffset source offset)) := by
  obtain ⟨text, hscan⟩ := h.scan_eq
  exact ⟨text, by rw [tokenize, hscan]; rfl⟩

theorem exists_layout_of_tokenize {source : List Char} {ls : List Lexeme} (h : tokenize source = .ok ls) :
    ∃ layout : Layout, layout.Of source ∧ layout.lexemes = ls := by
  rcases exists_layout_or_stuck source with ⟨layout, hlayout⟩ | ⟨offset, hstuck⟩
  · exact ⟨layout, hlayout, Except.ok.inj (hlayout.tokenize_eq.symm.trans h)⟩
  · obtain ⟨found, herror⟩ := hstuck.tokenize_eq
    cases herror.symm.trans h

theorem Layout.Of.lexemes_span {layout : Layout} {source : List Char} (h : layout.Of source) {l : Lexeme}
    (hl : l ∈ layout.lexemes) : l.SpansIn source := by
  have hspan := Piece.lexemes_span h.lawful [] hl
  rwa [List.nil_append, h.chars] at hspan

theorem Layout.Of.lexemes_spells {layout : Layout} {source : List Char} (h : layout.Of source) {l : Lexeme}
    (hl : l ∈ layout.lexemes) : l.token.Spells l.text.toList :=
  Piece.lexemes_spells h.lawful hl

/-- Tokenizing a source gives the lexemes of its layout, which is unique and spans the source without
overlaps; without a layout the refusal is positioned at the first place where no rule applies. -/
theorem tokenize_layout (source : List Char) :
    (∀ ls, tokenize source = .ok ls ↔ ∃ layout : Layout, layout.Of source ∧ layout.lexemes = ls) ∧
    (∀ one other : Layout, one.Of source → other.Of source → one = other) ∧
    (∀ layout : Layout, layout.Of source → (∀ l ∈ layout.lexemes, l.SpansIn source) ∧
      layout.lexemes.Pairwise fun a b => a.stop ≤ b.start) ∧
    ((∃ layout : Layout, layout.Of source) ∨ ∃ offset, StuckAt source offset) ∧
    (∀ one other, StuckAt source one → StuckAt source other → one = other) ∧
    ∀ offset, StuckAt source offset →
      ∃ found, tokenize source = .error (.unexpectedCharacter found (Position.ofOffset source offset)) := by
  refine ⟨fun ls => ⟨exists_layout_of_tokenize, ?_⟩, fun _ _ => Layout.Of.unique, fun layout h => ⟨?_, ?_⟩,
    exists_layout_or_stuck source, fun _ _ => StuckAt.unique, fun _ => StuckAt.tokenize_eq⟩
  · rintro ⟨layout, hlayout, rfl⟩
    exact hlayout.tokenize_eq
  · exact fun l hl => h.lexemes_span hl
  · exact Piece.lexemes_pairwise 0 layout.pieces

/-- A comment, a number before a name and an empty string; and an escape that no string has. -/
theorem tokenize_layout_mixed :
    (∃ layout : Layout, layout.Of "a 1e# \"\n\"\"".toList ∧ layout.lexemes.map (fun l => (l.start, l.stop)) =
      [(0, 1), (2, 3), (3, 4), (8, 10)]) ∧
    ∃ offset, StuckAt "\"é\" \"\\q\"".toList offset ∧ Position.ofOffset "\"é\" \"\\q\"".toList offset = ⟨1, 5⟩ := by
  have hmixed : tokenize "a 1e# \"\n\"\"".toList = .ok [⟨.name "a", "a", 0, 1⟩, ⟨.int "1", "1", 2, 3⟩,
      ⟨.name "e", "e", 3, 4⟩, ⟨.string "", "\"\"", 8, 10⟩] := by decide +kernel
  have hescape : tokenize "\"é\" \"\\q\"".toList = .error (.unexpectedCharacter "\"\\q\"" ⟨1, 5⟩) := by decide +kernel
  obtain ⟨hlayout, -⟩ := tokenize_layout "a 1e# \"\n\"\"".toList
  obtain ⟨layout, hof, hlexemes⟩ := (hlayout _).mp hmixed
  refine ⟨⟨layout, hof, by rw [hlexemes]; rfl⟩, ?_⟩
  obtain ⟨hlayout, -, -, hcases, -, hstuck⟩ := tokenize_layout "\"é\" \"\\q\"".toList
  rcases hcases with ⟨layout, hof⟩ | ⟨offset, hno⟩
  · cases hescape.symm.trans ((hlayout _).mpr ⟨layout, hof, rfl⟩)
  · obtain ⟨found, herror⟩ := hstuck offset hno
    have hsame := Except.error.inj (hescape.symm.trans herror)
    exact ⟨offset, hno, (ParseError.unexpectedCharacter.inj hsame).2.symm⟩

end SchemaModels
