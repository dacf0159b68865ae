import Mathlib.Tactic.Tauto
import SchemaModels.Proofs.Lexical

/-! Spelling tokens. Every token of a lexical class has a spelling that is read back as the token
wherever a gap or the end follows, so a row of tokens spelled with blanks between them is scanned as
that row. Strings are spelled with one quote and escapes, whatever form they were read from. -/

namespace SchemaModels
set_option autoImplicit false

/-! ## Spellings -/

/-- How a character stands inside a string literal. -/
def StringLiteral.escape : Char → List Char
  | '"' => ['\\', '"']
  | '\\' => ['\\', '\\']
  | '\x08' => ['\\', 'b']
  | '\x0c' => ['\\', 'f']
  | '\n' => ['\\', 'n']
  | '\r' => ['\\', 'r']
  | '\t' => ['\\', 't']
  | c => [c]

/-- A token that is read from its spelling: no block string, whose text is spelled as a string. -/
def Token.Canonical : Token → Prop
  | blockString _ => False
  | t => t.Lexical

/-- The spelling of a token: strings in quotes, all else as it is shown. -/
def Token.spelling (t : Token) : List Char :=
  match t.stringValue? with
  | some value => '"' :: value.toList.flatMap StringLiteral.escape ++ ['"']
  | none => t.display.toList

/-- A gap or the end of the text comes next. -/
def AtGap (rest : List Char) : Prop :=
  ∀ c, rest.head? = some c → isIgnored c = true ∨ c = '#'

theorem atGap_nil : AtGap [] :=
  fun _ h => nomatch h

theorem atGap_blank (rest : List Char) : AtGap (' ' :: rest) := by
  intro c h
  cases h
  exact Or.inl rfl

theorem gapStart_cases {c : Char} (h : isIgnored c = true ∨ c = '#') :
    c = ' ' ∨ c = '\t' ∨ c = '\r' ∨ c = '\n' ∨ c = ',' ∨ c = '#' := by
  rcases h with h | rfl
  · simp only [isIgnored, Bool.or_eq_true, decide_eq_true_eq] at h
    tauto
  · simp

/-- The first character of a gap belongs to no name or number and opens no string. -/
theorem AtGap.not_part {rest : List Char} (h : AtGap rest) {c : Char} (hc : rest.head? = some c) :
    isNamePart c = false ∧ c.isDigit = false ∧ c ≠ '.' ∧ c ≠ 'e' ∧ c ≠ 'E' ∧ c ≠ '"' := by
  rcases gapStart_cases (h c hc) with rfl | rfl | rfl | rfl | rfl | rfl <;> decide

/-! ## Runs of characters -/

theorem span_append {p : Char → Bool} {front rest : List Char} (hfront : ∀ c ∈ front, p c = true)
    (hrest : ∀ c, rest.head? = some c → p c = false) :
    (front ++ rest).takeWhile p = front ∧ (front ++ rest).dropWhile p = rest := by
  induction front with
  | nil =>
    cases rest with
    | nil => exact ⟨rfl, rfl⟩
    | cons c rest => simp [hrest c rfl]
  | cons c front ih =>
    obtain ⟨ht, hd⟩ := ih fun x hx => hfront x (List.mem_cons_of_mem _ hx)
    simp [hfront c List.mem_cons_self, ht, hd]

namespace Number

/-- What follows digits is no digit. -/
def NoDigit (rest : List Char) : Prop :=
  ∀ c, rest.head? = some c → c.isDigit = false

theorem digits_extend {ds : List Char} (h : ∀ c ∈ ds, c.isDigit = true) (rest : List Char) :
    digits (ds ++ rest) = (ds ++ (digits rest).1, (digits rest).2) := by
  simp only [digits, List.takeWhile_append_of_pos h, List.dropWhile_append_of_pos h]

theorem NoDigit.digits_eq {rest : List Char} (h : NoDigit rest) : digits rest = ([], rest) := by
  cases rest with
  | nil => rfl
  | cons c rest => simp [digits, h c rfl]

theorem digits_eq {ds rest : List Char} (hds : ∀ c ∈ ds, c.isDigit = true) (hrest : NoDigit rest) :
    digits (ds ++ rest) = (ds, rest) := by
  rw [digits_extend hds, hrest.digits_eq, List.append_nil]

theorem integer_eq {i rest : List Char} (hi : IsInteger i) (hrest : NoDigit rest) :
    integer (i ++ rest) = some (i, rest) := by
  rcases hi with rfl | ⟨⟨hne, hds⟩, hhead⟩
  · rfl
  · cases i with
    | nil => exact absurd rfl hne
    | cons c ds =>
      have hc : c ≠ '0' := fun e => hhead (by rw [e]; rfl)
      have hdigit := hds c List.mem_cons_self
      rw [List.cons_append, integer, if_neg hc, if_pos hdigit, ← List.cons_append, digits_eq hds hrest]

theorem IsInteger.head {i : List Char} (hi : IsInteger i) : ∃ c ds, i = c :: ds ∧ c.isDigit = true := by
  rcases hi with rfl | ⟨⟨hne, hds⟩, -⟩
  · exact ⟨'0', [], rfl, rfl⟩
  · cases i with
    | nil => exact absurd rfl hne
    | cons c ds => exact ⟨c, ds, rfl, hds c List.mem_cons_self⟩

theorem sign_eq {s i : List Char} (hs : s = [] ∨ s = ['-']) (hi : IsInteger i) (rest : List Char) :
    sign (s ++ i ++ rest) = (s, i ++ rest) := by
  rcases hs with rfl | rfl
  · obtain ⟨c, ds, rfl, hc⟩ := hi.head
    have hne : c ≠ '-' := by
      rintro rfl
      exact absurd hc (by decide)
    rw [List.nil_append, List.cons_append, sign]
    intro cs hcs
    exact hne (List.cons.inj hcs).1
  · rfl

theorem fraction_extend {f : List Char} (hf : IsFraction f) (rest : List Char) :
    fraction (f ++ rest) = (f ++ (digits rest).1, (digits rest).2) := by
  obtain ⟨ds, rfl, hne, hds⟩ := hf
  rw [List.cons_append, fraction, digits_extend hds]
  split
  · next he => exact absurd (List.append_eq_nil_iff.mp (Prod.mk.inj he).1).1 hne
  · next he =>
    obtain ⟨rfl, rfl⟩ := Prod.mk.inj he
    rfl

theorem fraction_eq {f rest : List Char} (hf : IsFraction f) (hrest : NoDigit rest) :
    fraction (f ++ rest) = (f, rest) := by
  rw [fraction_extend hf, hrest.digits_eq, List.append_nil]

theorem fraction_none {rest : List Char} (h : rest.head? ≠ some '.') : fraction rest = ([], rest) := by
  unfold fraction
  split
  · exact absurd rfl h
  · rfl

theorem exponent_extend {e : List Char} (he : IsExponent e) (rest : List Char) :
    exponent (e ++ rest) = (e ++ (digits rest).1, (digits rest).2) := by
  obtain ⟨c, s, ds, rfl, hc, hs, hne, hds⟩ := he
  have hsign : exponentSign (s ++ ds ++ rest) = (s, ds ++ rest) := by
    rcases hs with rfl | rfl | rfl
    · cases ds with
      | nil => exact absurd rfl hne
      | cons d ds =>
        have hd := hds d List.mem_cons_self
        have hplain : ¬ (d = '+' ∨ d = '-') := by
          rintro (rfl | rfl) <;> exact absurd hd (by decide)
        rw [List.nil_append, List.cons_append, exponentSign, if_neg hplain]
    · rfl
    · rfl
  rw [List.cons_append, List.cons_append, exponent, if_pos hc]
  dsimp only
  rw [hsign, digits_extend hds]
  split
  · next hnil => exact absurd (List.append_eq_nil_iff.mp (Prod.mk.inj hnil).1).1 hne
  · next heq =>
    obtain ⟨rfl, rfl⟩ := Prod.mk.inj heq
    simp

theorem exponent_eq {e rest : List Char} (he : IsExponent e) (hrest : NoDigit rest) :
    exponent (e ++ rest) = (e, rest) := by
  rw [exponent_extend he, hrest.digits_eq, List.append_nil]

theorem exponent_none {rest : List Char} (h : rest.head? ≠ some 'e' ∧ rest.head? ≠ some 'E') :
    exponent rest = ([], rest) := by
  unfold exponent
  split
  · rfl
  · next c cs =>
    have hc : ¬ (c = 'e' ∨ c = 'E') := by
      rintro (rfl | rfl)
      · exact h.1 rfl
      · exact h.2 rfl
    rw [if_neg hc]

/-- The head of a text that no digit, point or exponent letter can continue. -/
def NoPart (rest : List Char) : Prop :=
  NoDigit rest ∧ rest.head? ≠ some '.' ∧ rest.head? ≠ some 'e' ∧ rest.head? ≠ some 'E'

theorem read?_int {text rest : List Char} (h : IsInt text) (hrest : NoPart rest) :
    read? (text ++ rest) = some ⟨text, false, rest⟩ := by
  obtain ⟨s, i, rfl, hs, hi⟩ := h
  have hf := fraction_none hrest.2.1
  have he := exponent_none hrest.2.2
  rw [read?, sign_eq hs hi]
  dsimp only
  rw [integer_eq hi hrest.1, Option.map_some, hf]
  dsimp only
  rw [he]
  simp

theorem noDigit_of_head {cs rest : List Char} {c : Char} (h : cs = c :: rest) (hc : c.isDigit = false) :
    NoDigit cs := by
  intro x hx
  rw [h, List.head?_cons, Option.some.injEq] at hx
  exact hx ▸ hc

theorem IsExponent.noDigit {e : List Char} (he : IsExponent e) (rest : List Char) : NoDigit (e ++ rest) := by
  obtain ⟨c, s, ds, rfl, hc, -⟩ := he
  have hcons : c :: s ++ ds ++ rest = c :: (s ++ ds ++ rest) := rfl
  refine noDigit_of_head hcons ?_
  rcases hc with rfl | rfl <;> rfl

theorem IsExponent.not_point {e : List Char} (he : IsExponent e) (rest : List Char) :
    (e ++ rest).head? ≠ some '.' := by
  obtain ⟨c, s, ds, rfl, hc, -⟩ := he
  rcases hc with rfl | rfl <;> simp

theorem IsFraction.noDigit {f : List Char} (hf : IsFraction f) (rest : List Char) : NoDigit (f ++ rest) := by
  obtain ⟨ds, rfl, -⟩ := hf
  have hcons : '.' :: ds ++ rest = '.' :: (ds ++ rest) := rfl
  exact noDigit_of_head hcons rfl

theorem read?_float {text rest : List Char} (h : IsFloat text) (hrest : NoPart rest) :
    read? (text ++ rest) = some ⟨text, true, rest⟩ := by
  obtain ⟨_, f, e, rfl, ⟨s, i, rfl, hs, hi⟩, hparts⟩ := h
  have hread : NoDigit (f ++ (e ++ rest)) → fraction (f ++ (e ++ rest)) = (f, e ++ rest) →
      exponent (e ++ rest) = (e, rest) → f ++ e ≠ [] →
      read? (s ++ i ++ f ++ e ++ rest) = some ⟨s ++ i ++ f ++ e, true, rest⟩ := by
    intro hdigit hf he hne
    rw [read?, List.append_assoc (s ++ i ++ f), List.append_assoc (s ++ i), sign_eq hs hi]
    dsimp only
    rw [integer_eq hi hdigit, Option.map_some, hf]
    dsimp only
    rw [he]
    simp [hne]
  rcases hparts with ⟨hf, rfl | he⟩ | ⟨rfl, he⟩
  · refine hread (hf.noDigit _) (fraction_eq hf hrest.1) (exponent_none hrest.2.2) ?_
    rw [List.append_nil]
    exact hf.ne_nil
  · exact hread (hf.noDigit _) (fraction_eq hf (he.noDigit rest)) (exponent_eq he hrest.1)
      (List.append_ne_nil_of_left_ne_nil hf.ne_nil _)
  · exact hread (he.noDigit rest) (fraction_none (he.not_point rest)) (exponent_eq he hrest.1) he.ne_nil

end Number

/-! ## Strings -/

namespace StringLiteral

theorem body_escape (c : Char) (cs : List Char) :
    body (escape c ++ cs) = (escape c ++ (body cs).1, (body cs).2) := by
  unfold escape
  split
  case h_8 h1 h2 _ _ h5 h6 _ =>
    have hstop : ¬ (c = '"' ∨ c = '\\' ∨ c = '\n' ∨ c = '\r') := by
      rintro (h | h | h | h)
      · exact h1 h
      · exact h2 h
      · exact h5 h
      · exact h6 h
    rw [List.singleton_append, body, if_neg hstop]
    · rfl
    · exact fun _ _ he => absurd he h2
  all_goals rfl

theorem decode?_simple {letter x : Char} (h : simpleEscape? letter = some x) (cs : List Char) :
    decode? ('\\' :: letter :: cs) = (decode? cs).map (x :: ·) := by
  have hu : letter ≠ 'u' := by
    rintro rfl
    cases h
  rw [decode?]
  · rw [h]
    cases decode? cs <;> rfl
  · intro _ _ _ _ _ he
    exact absurd he hu

theorem decode?_escape (c : Char) (cs : List Char) :
    decode? (escape c ++ cs) = (decode? cs).map (c :: ·) := by
  unfold escape
  split
  case h_8 _ h2 _ _ _ _ _ =>
    rw [List.singleton_append, decode?, if_neg h2]
    · exact fun _ _ _ _ _ he => absurd he h2
    · exact fun _ _ he => absurd he h2
  all_goals exact decode?_simple rfl cs

/-- What a character is escaped as starts with no quote. -/
theorem escape_head (c : Char) : ∃ x xs, escape c = x :: xs ∧ x ≠ '"' := by
  unfold escape
  split
  case h_8 h1 _ _ _ _ _ _ => exact ⟨c, [], rfl, h1⟩
  all_goals exact ⟨'\\', _, rfl, by decide⟩

theorem body_spelled (value rest : List Char) :
    body (value.flatMap escape ++ '"' :: rest) = (value.flatMap escape, '"' :: rest) := by
  induction value with
  | nil => rfl
  | cons c value ih => rw [List.flatMap_cons, List.append_assoc, body_escape, ih]

theorem decode?_spelled (value : List Char) : decode? (value.flatMap escape) = some value := by
  induction value with
  | nil => rfl
  | cons c value ih => rw [List.flatMap_cons, decode?_escape, ih, Option.map_some]

end StringLiteral

/-! ## Tokens -/

namespace Reading

theorem ofChars_quote {cs : List Char} (h : ∀ rest, cs ≠ '"' :: '"' :: rest) :
    ofChars ('"' :: cs) = string cs := by
  unfold ofChars
  split
  · next he => cases he
  · next he => exact absurd (List.cons.inj he).2 (h _)
  · next he => rw [(List.cons.inj he).2]
  · next he => exact nomatch (List.cons.inj he).1
  · next hq _ he => exact absurd (List.cons.inj he).1.symm hq

theorem ofChars_plain {c : Char} {cs : List Char} (hq : c ≠ '"') (hd : c ≠ '.') :
    ofChars (c :: cs) =
      match Token.ofChar? c with
      | some t => .ok ⟨t, [c], cs⟩
      | none =>
        if isNameStart c then .ok (name c cs)
        else
          match Number.read? (c :: cs) with
          | some n => .ok (number n)
          | none => .error [c] := by
  unfold ofChars
  split
  · next he => cases he
  · next he => exact absurd (List.cons.inj he).1 hq
  · next he => exact absurd (List.cons.inj he).1 hq
  · next he => exact absurd (List.cons.inj he).1 hd
  · next he =>
    cases he
    rfl

end Reading

/-- A character that starts a name makes no token by itself and opens no string or spread. -/
theorem ofChar?_of_nameStart {c : Char} (h : isNameStart c = true) :
    Token.ofChar? c = none ∧ c ≠ '"' ∧ c ≠ '.' := by
  refine ⟨?_, ?_, ?_⟩
  · unfold Token.ofChar?
    split
    case h_14 => rfl
    all_goals exact absurd h (by decide)
  · rintro rfl
    exact absurd h (by decide)
  · rintro rfl
    exact absurd h (by decide)

theorem not_nameStart_of_digit {c : Char} (h : c.isDigit = true) : isNameStart c = false := by
  have hrange : 48 ≤ c.toNat ∧ c.toNat ≤ 57 := by
    simpa [Char.isDigit, UInt32.le_iff_toNat_le] using h
  have hne : c ≠ '_' := by
    rintro rfl
    exact absurd h (by decide)
  have hupper : c.isUpper = false := by
    refine decide_eq_false fun hletter => ?_
    have : 65 ≤ c.toNat := UInt32.le_iff_toNat_le.mp hletter.1
    omega
  have hlower : c.isLower = false := by
    refine Bool.and_eq_false_imp.mpr fun hletter => ?_
    have : 97 ≤ c.toNat := UInt32.le_iff_toNat_le.mp (of_decide_eq_true hletter)
    omega
  show (decide (c = '_') || (c.isUpper || c.isLower)) = false
  rw [decide_eq_false hne, hupper, hlower]
  rfl

/-- A character that starts a number makes no token by itself and starts no name, string or spread. -/
theorem ofChar?_of_numberStart {c : Char} (h : c.isDigit = true ∨ c = '-') :
    Token.ofChar? c = none ∧ isNameStart c = false ∧ c ≠ '"' ∧ c ≠ '.' := by
  rcases h with h | rfl
  · refine ⟨?_, not_nameStart_of_digit h, ?_, ?_⟩
    · unfold Token.ofChar?
      split
      case h_14 => rfl
      all_goals exact absurd h (by decide)
    · rintro rfl
      exact absurd h (by decide)
    · rintro rfl
      exact absurd h (by decide)
  · decide

theorem AtGap.noPart {rest : List Char} (h : AtGap rest) : Number.NoPart rest :=
  ⟨fun _ hc => (h.not_part hc).2.1, fun hc => (h.not_part hc).2.2.1 rfl, fun hc => (h.not_part hc).2.2.2.1 rfl,
    fun hc => (h.not_part hc).2.2.2.2.1 rfl⟩

namespace Reading

theorem ofChars_name {text rest : List Char} (h : IsName text) (hr : AtGap rest) :
    ofChars (text ++ rest) = .ok ⟨.name (String.ofList text), text, rest⟩ := by
  obtain ⟨c, cs, rfl, hc, hcs⟩ := h
  obtain ⟨hnone, hq, hd⟩ := ofChar?_of_nameStart hc
  obtain ⟨htake, hdrop⟩ := span_append hcs fun x hx => (hr.not_part hx).1
  rw [List.cons_append, ofChars_plain hq hd, hnone]
  simp only [hc, if_true, name, htake, hdrop]

theorem ofChars_number {text rest : List Char} {c : Char} {cs : List Char} (hcons : text = c :: cs)
    (hc : c.isDigit = true ∨ c = '-') {n : Number.Literal} (h : Number.read? (text ++ rest) = some n) :
    ofChars (text ++ rest) = .ok (number n) := by
  obtain ⟨hnone, hname, hq, hd⟩ := ofChar?_of_numberStart hc
  subst hcons
  rw [List.cons_append] at h ⊢
  rw [ofChars_plain hq hd, hnone]
  simp only [hname, Bool.false_eq_true, if_false, h]

end Reading

theorem Number.IsInt.head {text : List Char} (h : IsInt text) :
    ∃ c cs, text = c :: cs ∧ (c.isDigit = true ∨ c = '-') := by
  obtain ⟨s, i, rfl, rfl | rfl, hi⟩ := h
  · obtain ⟨c, ds, rfl, hc⟩ := hi.head
    exact ⟨c, ds, rfl, Or.inl hc⟩
  · exact ⟨'-', i, rfl, Or.inr rfl⟩

theorem Number.IsFloat.head {text : List Char} (h : IsFloat text) :
    ∃ c cs, text = c :: cs ∧ (c.isDigit = true ∨ c = '-') := by
  obtain ⟨i, f, e, rfl, hi, -⟩ := h
  obtain ⟨c, cs, rfl, hc⟩ := hi.head
  exact ⟨c, cs ++ f ++ e, by simp, hc⟩

theorem StringLiteral.ofChars_spelled (value rest : List Char) (hr : AtGap rest) :
    Reading.ofChars ('"' :: value.flatMap escape ++ ['"'] ++ rest) =
      .ok ⟨.string (String.ofList value), '"' :: value.flatMap escape ++ ['"'], rest⟩ := by
  have hcut : '"' :: value.flatMap escape ++ ['"'] ++ rest = '"' :: (value.flatMap escape ++ '"' :: rest) := by
    simp
  rw [hcut, Reading.ofChars_quote]
  · simp only [Reading.string, body_spelled, decode?_spelled]
  · -- a second quote is the closing one, and no third follows it
    intro cs he
    cases value with
    | nil =>
      have hq : rest.head? = some '"' := by
        rw [List.flatMap_nil, List.nil_append] at he
        rw [(List.cons.inj he).2, List.head?_cons]
      exact (hr.not_part hq).2.2.2.2.2 rfl
    | cons c value =>
      obtain ⟨x, xs, hx, hne⟩ := escape_head c
      rw [List.flatMap_cons, hx] at he
      exact hne (List.cons.inj he).1

/-- The spelling of a token is read as the token wherever a gap or the end follows. -/
theorem Reading.ofChars_spelling {t : Token} (h : t.Canonical) {rest : List Char} (hr : AtGap rest) :
    Reading.ofChars (t.spelling ++ rest) = .ok ⟨t, t.spelling, rest⟩ := by
  cases t with
  | name text =>
    have hread := ofChars_name h hr
    rwa [String.ofList_toList] at hread
  | int text =>
    obtain ⟨c, cs, hcons, hc⟩ := Number.IsInt.head h
    have hread := ofChars_number hcons hc (Number.read?_int h hr.noPart)
    rwa [number, String.ofList_toList] at hread
  | float text =>
    obtain ⟨c, cs, hcons, hc⟩ := Number.IsFloat.head h
    have hread := ofChars_number hcons hc (Number.read?_float h hr.noPart)
    rwa [number, String.ofList_toList] at hread
  | string value =>
    have hread := StringLiteral.ofChars_spelled value.toList rest hr
    rwa [String.ofList_toList] at hread
  | blockString value => exact h.elim
  | _ => rfl

/-! ## Rows of tokens -/

namespace Token

/-- A text is read as a token wherever a gap or the end follows. -/
def Spells (t : Token) (text : List Char) : Prop :=
  ∀ rest, AtGap rest → Reading.ofChars (text ++ rest) = .ok ⟨t, text, rest⟩

theorem Canonical.spells {t : Token} (h : t.Canonical) : t.Spells t.spelling :=
  fun _ hr => Reading.ofChars_spelling h hr

/-- Tokens with a blank between any two of them. -/
def spellAll (ts : List Token) : List Char :=
  [' '].intercalate (ts.map spelling)

/-- The same of tokens that come with their texts. -/
def rowText (row : List (Token × List Char)) : List Char :=
  [' '].intercalate (row.map Prod.snd)

theorem spellAll_eq (ts : List Token) : spellAll ts = rowText (ts.map fun t => (t, t.spelling)) := by
  simp [spellAll, rowText, Function.comp_def]

theorem rowText_cons (p : Token × List Char) (row : List (Token × List Char)) :
    ∃ gap, rowText (p :: row) = p.2 ++ (gap ++ rowText row) ∧ (gap = [] ∨ gap = [' ']) ∧
      AtGap (gap ++ rowText row) := by
  cases row with
  | nil => exact ⟨[], by simp [rowText], Or.inl rfl, atGap_nil⟩
  | cons q row => exact ⟨[' '], by simp [rowText], Or.inr rfl, atGap_blank _⟩

end Token

/-- A text that can be read starts with no gap. -/
theorem splitGap_of_read {cs : List Char} {r : Reading} (h : Reading.ofChars cs = .ok r) :
    splitGap false cs = ([], cs) := by
  cases cs with
  | nil => cases h
  | cons c cs =>
    have hstart : ¬ (isIgnored c = true ∨ c = '#') := by
      intro hc
      rcases gapStart_cases hc with rfl | rfl | rfl | rfl | rfl | rfl <;> cases h
    simp only [splitGap, Bool.or_eq_true, decide_eq_true_eq, if_neg hstart]

namespace Lexeme

theorem scanFrom_end (found : List Lexeme) (offset : Nat) {cs gap : List Char}
    (hgap : splitGap false cs = (gap, [])) : scanFrom found offset cs = .ok found.reverse := by
  rw [scanFrom]
  split
  · rfl
  · next he => cases hgap.symm.trans he

/-- One step of a scan: a gap, then a token. -/
theorem scanFrom_step (found : List Lexeme) (offset : Nat) {cs gap rest : List Char} {r : Reading}
    (hgap : splitGap false cs = (gap, rest)) (hread : Reading.ofChars rest = .ok r) :
    scanFrom found offset cs =
      scanFrom (⟨r.token, String.ofList r.text, offset + byteLength gap,
        offset + byteLength gap + byteLength r.text⟩ :: found)
          (offset + byteLength gap + byteLength r.text) r.rest := by
  rw [scanFrom]
  split
  · next he =>
    obtain ⟨-, rfl⟩ := Prod.mk.inj (hgap.symm.trans he)
    cases hread
  · next he =>
    obtain ⟨rfl, rfl⟩ := Prod.mk.inj (hgap.symm.trans he)
    dsimp only
    split
    · next hno => cases hread.symm.trans hno
    · next hyes =>
      cases hread.symm.trans hyes
      rfl

/-- The last step of a scan that fails: a gap, then no token. -/
theorem scanFrom_unreadable (found : List Lexeme) (offset : Nat) {cs gap rest text : List Char}
    (hgap : splitGap false cs = (gap, rest)) (hne : rest ≠ []) (hread : Reading.ofChars rest = .error text) :
    scanFrom found offset cs = .error ⟨String.ofList text, offset + byteLength gap⟩ := by
  rw [scanFrom]
  split
  · next he => exact absurd (Prod.mk.inj (hgap.symm.trans he)).2 hne
  · next he =>
    obtain ⟨rfl, rfl⟩ := Prod.mk.inj (hgap.symm.trans he)
    dsimp only
    split
    · next hno =>
      cases hread.symm.trans hno
      rfl
    · next hyes => cases hread.symm.trans hyes

/-- A row of tokens in their spellings is scanned as that row. -/
theorem scanFrom_row {row : List (Token × List Char)} (hrow : ∀ p ∈ row, p.1.Spells p.2)
    {gap : List Char} (hgap : gap = [] ∨ gap = [' ']) (found : List Lexeme) (offset : Nat) :
    ∃ ls, scanFrom found offset (gap ++ Token.rowText row) = .ok (found.reverse ++ ls) ∧
      ls.map token = row.map Prod.fst := by
  induction row generalizing gap found offset with
  | nil =>
    refine ⟨[], ?_, rfl⟩
    rw [List.append_nil]
    rcases hgap with rfl | rfl
    · exact scanFrom_end found offset rfl
    · exact scanFrom_end found offset rfl
  | cons p row ih =>
    obtain ⟨next, htext, hnext, hat⟩ := Token.rowText_cons p row
    have hread := hrow p List.mem_cons_self _ hat
    rw [← htext] at hread
    have hsplit : splitGap false (gap ++ Token.rowText (p :: row)) = (gap, Token.rowText (p :: row)) := by
      have hplain := splitGap_of_read hread
      rcases hgap with rfl | rfl
      · exact hplain
      · exact congrArg (fun r => (' ' :: r.1, r.2)) hplain
    rw [scanFrom_step found offset hsplit hread]
    obtain ⟨ls, hscan, hmap⟩ := ih (fun q hq => hrow q (List.mem_cons_of_mem _ hq)) hnext _ _
    rw [hscan, List.reverse_cons, List.append_assoc, List.singleton_append]
    exact ⟨_, rfl, by rw [List.map_cons, List.map_cons, hmap]⟩

/-- A scan finds tokens of their classes only. -/
theorem scanFrom_lexical {found ls : List Lexeme} {offset : Nat} {cs : List Char}
    (hfound : ∀ l ∈ found, l.token.Lexical) (h : scanFrom found offset cs = .ok ls) :
    ∀ l ∈ ls, l.token.Lexical := by
  fun_induction scanFrom found offset cs with
  | case1 =>
    cases h
    simpa using hfound
  | case2 => cases h
  | case3 _ _ _ _ _ _ _ _ r hread _ ih =>
    refine ih ?_ h
    intro l hl
    rcases List.mem_cons.mp hl with rfl | hl
    · exact Reading.ofChars_lexical hread
    · exact hfound l hl

end Lexeme

end SchemaModels
