import Mathlib.Data.List.Forall2
import Mathlib.Data.List.Induction
import Mathlib.Data.Nat.Digits.Defs
import SchemaModels.Proofs.Layout

/-! Escapes of string literals. A literal makes a token exactly if its inside is a row of plain characters and
escapes, and the token stands for what these stand for; any other literal is refused as a whole. An escape is
a backslash with a letter, or with `u` and four hexadecimal digits that number a character. In place of the
first digit a plus sign is read too, which the grammar of the language does not have. -/

namespace SchemaModels
set_option autoImplicit false

namespace StringLiteral

/-! ## The grammar of escapes -/

/-- A hexadecimal digit, in either case, and its value. -/
def HexDigit (c : Char) (n : Nat) : Prop :=
  n < 16 ∧ (c = n.digitChar ∨ c = n.digitChar.toUpper)

/-- Digits, and the number that they denote. -/
def Denotes (digits : List Char) (number : Nat) : Prop :=
  ∃ values, List.Forall₂ HexDigit digits.reverse values ∧ Nat.ofDigits 16 values = number

/-- Four digits that number a character; no character has the number of a surrogate. -/
def Code (digits : List Char) (x : Char) : Prop :=
  digits.length = 4 ∧ Denotes digits x.toNat

/-- A plus sign and three digits that number a character. -/
def SignedCode (code : List Char) (x : Char) : Prop :=
  ∃ digits, code = '+' :: digits ∧ digits.length = 3 ∧ Denotes digits x.toNat

def ReadCode (code : List Char) (x : Char) : Prop :=
  Code code x ∨ SignedCode code x

/-- The letters that make an escape with a backslash, and what the escape stands for. -/
def letterEscapes : List (Char × Char) :=
  [('"', '"'), ('\\', '\\'), ('/', '/'), ('b', '\x08'), ('f', '\x0c'), ('n', '\n'), ('r', '\r'), ('t', '\t')]

/-- A row of plain characters and escapes stands for a text. What may follow `u` is a parameter. -/
inductive Decodes (code : List Char → Char → Prop) : List Char → List Char → Prop
  | nil : Decodes code [] []
  | plain {c : Char} {cs xs : List Char} : c ≠ '\\' → Decodes code cs xs → Decodes code (c :: cs) (c :: xs)
  | letter {l x : Char} {cs xs : List Char} : (l, x) ∈ letterEscapes → Decodes code cs xs →
    Decodes code ('\\' :: l :: cs) (x :: xs)
  | numbered {digits : List Char} {x : Char} {cs xs : List Char} : code digits x → Decodes code cs xs →
    Decodes code ('\\' :: 'u' :: (digits ++ cs)) (x :: xs)

/-- A plus sign follows an escape's `u`. -/
def Signed (inside : List Char) : Prop :=
  ∃ front rest, inside = front ++ '\\' :: 'u' :: '+' :: rest ∧ Units front

def literal (inside : List Char) : List Char :=
  '"' :: inside ++ ['"']

/-! ## Numbers -/

theorem hexDigit?_eq_some_iff {c : Char} {n : Nat} : hexDigit? c = some n ↔ HexDigit c n := by
  constructor
  · intro h
    have htable : ∀ k < 128, ∀ n ∈ hexDigit? (Char.ofNat k),
        n < 16 ∧ (Char.ofNat k = n.digitChar ∨ Char.ofNat k = n.digitChar.toUpper) := by decide +kernel
    have hascii : c.toNat < 128 := by
      unfold hexDigit? at h
      split at h
      · next hdigit =>
        have hle : c.toNat ≤ 57 := (Char.isDigit_iff_toNat.mp hdigit).2
        omega
      · split at h
        · next hletter =>
          have hle : c.toNat ≤ 102 := Char.le_def.mp hletter.2
          omega
        · split at h
          · next hletter =>
            have hle : c.toNat ≤ 70 := Char.le_def.mp hletter.2
            omega
          · cases h
    have hdigit := htable c.toNat hascii n
    rw [Char.ofNat_toNat] at hdigit
    exact hdigit h
  · have htable : ∀ n < 16, hexDigit? n.digitChar = some n ∧ hexDigit? n.digitChar.toUpper = some n := by decide
    rintro ⟨hn, rfl | rfl⟩
    · exact (htable n hn).1
    · exact (htable n hn).2

/-- No sign, backslash, quote or line end is a digit. -/
theorem HexDigit.plain {c : Char} {n : Nat} (h : HexDigit c n) :
    c ≠ '+' ∧ c ≠ '"' ∧ c ≠ '\\' ∧ c ≠ '\r' ∧ c ≠ '\n' := by
  have hread := hexDigit?_eq_some_iff.mpr h
  refine ⟨?_, ?_, ?_, ?_, ?_⟩ <;> rintro rfl <;> cases hread

theorem denotes_snoc {digits : List Char} {c : Char} {number : Nat} :
    Denotes (digits ++ [c]) number ↔ ∃ front n, Denotes digits front ∧ HexDigit c n ∧ front * 16 + n = number := by
  simp only [Denotes, List.reverse_concat]
  constructor
  · rintro ⟨values, hvalues, rfl⟩
    obtain ⟨n, front, hn, hfront, rfl⟩ := List.forall₂_cons_left_iff.mp hvalues
    exact ⟨_, n, ⟨front, hfront, rfl⟩, hn, by rw [Nat.ofDigits_cons]; omega⟩
  · rintro ⟨_, n, ⟨front, hfront, rfl⟩, hn, rfl⟩
    exact ⟨n :: front, .cons hn hfront, by rw [Nat.ofDigits_cons]; omega⟩

theorem hexNumber?_eq_some_iff {digits : List Char} {number : Nat} :
    hexNumber? digits = some number ↔ Denotes digits number := by
  -- the reader takes one digit more at the end, as the notation does
  induction digits using List.reverseRecOn generalizing number with
  | nil => simp [hexNumber?, Denotes, eq_comm]
  | append_singleton digits c ih =>
    have hstep : hexNumber? (digits ++ [c]) =
        (hexNumber? digits).bind fun front => (hexDigit? c).map (front * 16 + ·) := by
      simp [hexNumber?, List.foldlM_append]
    simp only [hstep, Option.bind_eq_some_iff, Option.map_eq_some_iff, ih, hexDigit?_eq_some_iff, denotes_snoc,
      exists_and_left]

theorem Denotes.hexDigit {digits : List Char} {number : Nat} (h : Denotes digits number) :
    ∀ c ∈ digits, ∃ n, HexDigit c n := by
  induction digits using List.reverseRecOn generalizing number with
  | nil => exact List.forall_mem_nil _
  | append_singleton digits c ih =>
    obtain ⟨front, n, hfront, hn, -⟩ := denotes_snoc.mp h
    exact List.forall_mem_append.mpr ⟨ih hfront, List.forall_mem_singleton.mpr ⟨n, hn⟩⟩

theorem char?_eq_some_iff {n : Nat} {x : Char} : char? n = some x ↔ x.toNat = n := by
  unfold char?
  constructor
  · intro h
    split at h
    · next hvalid =>
      cases h
      rw [Char.ofNat, dif_pos hvalid]
      rfl
    · cases h
  · rintro rfl
    have hvalid : x.toNat.isValidChar := x.valid
    rw [if_pos hvalid, Char.ofNat_toNat]

theorem not_denotes_sign (digits : List Char) (number : Nat) : ¬ Denotes ('+' :: digits) number := by
  intro h
  obtain ⟨n, hn⟩ := h.hexDigit '+' List.mem_cons_self
  exact hn.plain.1 rfl

theorem codePoint?_bind_char? {a b c d x : Char} :
    (codePoint? a b c d).bind char? = some x ↔ ReadCode [a, b, c, d] x := by
  have hnumber : (codePoint? a b c d).bind char? = some x ↔ codePoint? a b c d = some x.toNat := by
    simp only [Option.bind_eq_some_iff, char?_eq_some_iff, exists_eq_right']
  rw [hnumber, codePoint?]
  split
  · next hsign =>
    subst hsign
    rw [hexNumber?_eq_some_iff]
    refine ⟨fun h => .inr ⟨_, rfl, rfl, h⟩, ?_⟩
    rintro (⟨-, h⟩ | ⟨digits, hdigits, -, h⟩)
    · exact absurd h (not_denotes_sign _ _)
    · rwa [(List.cons.inj hdigits).2]
  · next hsign =>
    rw [hexNumber?_eq_some_iff]
    refine ⟨fun h => .inl ⟨rfl, h⟩, ?_⟩
    rintro (⟨-, h⟩ | ⟨digits, hdigits, -⟩)
    · exact h
    · exact absurd (List.cons.inj hdigits).1 hsign

theorem ReadCode.length {code : List Char} {x : Char} (h : ReadCode code x) : code.length = 4 := by
  rcases h with ⟨hlength, -⟩ | ⟨digits, rfl, hlength, -⟩
  · exact hlength
  · rw [List.length_cons, hlength]

/-! ## Decoding -/

theorem simpleEscape?_eq_some_iff {l x : Char} : simpleEscape? l = some x ↔ (l, x) ∈ letterEscapes := by
  constructor
  · intro h
    unfold simpleEscape? at h
    split at h <;> cases h <;> decide
  · intro h
    simp only [letterEscapes, List.mem_cons, List.not_mem_nil, or_false, Prod.mk.injEq] at h
    rcases h with ⟨rfl, rfl⟩ | ⟨rfl, rfl⟩ | ⟨rfl, rfl⟩ | ⟨rfl, rfl⟩ | ⟨rfl, rfl⟩ | ⟨rfl, rfl⟩ | ⟨rfl, rfl⟩ |
      ⟨rfl, rfl⟩ <;> rfl

theorem decode?_plain {c : Char} (h : c ≠ '\\') (cs : List Char) : decode? (c :: cs) = (decode? cs).map (c :: ·) := by
  rw [decode?, if_neg h]
  · exact fun _ _ _ _ _ he => absurd he h
  · exact fun _ _ he => absurd he h

theorem decode?_numbered (a b c d : Char) (cs : List Char) :
    decode? ('\\' :: 'u' :: a :: b :: c :: d :: cs) =
      ((codePoint? a b c d).bind char?).bind fun x => (decode? cs).map (x :: ·) := by
  rw [decode?]
  simp only [Option.bind_eq_bind, Option.bind_assoc, Option.pure_def, Option.map_eq_bind, Function.comp_def]

theorem decodes_of_decode? {cs xs : List Char} (h : decode? cs = some xs) : Decodes ReadCode cs xs := by
  fun_induction decode? cs generalizing xs with
  | case1 =>
    cases h
    exact .nil
  | case2 a b c d cs ih =>
    obtain ⟨x, hx, hmap⟩ := Option.bind_eq_some_iff.mp ((decode?_numbered a b c d cs).symm.trans h)
    obtain ⟨xs, hxs, rfl⟩ := Option.map_eq_some_iff.mp hmap
    exact .numbered (codePoint?_bind_char?.mp hx) (ih hxs)
  | case3 l cs _ ih =>
    obtain ⟨x, hx, hbind⟩ := Option.bind_eq_some_iff.mp h
    obtain ⟨xs, hxs, hpure⟩ := Option.bind_eq_some_iff.mp hbind
    cases hpure
    exact .letter (simpleEscape?_eq_some_iff.mp hx) (ih hxs)
  | case4 => cases h
  | case5 c cs _ _ hc ih =>
    obtain ⟨xs, hxs, rfl⟩ := Option.map_eq_some_iff.mp h
    exact .plain hc (ih hxs)

theorem decode?_eq_some_iff {cs xs : List Char} : decode? cs = some xs ↔ Decodes ReadCode cs xs := by
  refine ⟨decodes_of_decode?, fun h => ?_⟩
  induction h with
  | nil => rfl
  | plain hc _ ih => rw [decode?_plain hc, ih, Option.map_some]
  | letter hl _ ih => rw [decode?_simple (simpleEscape?_eq_some_iff.mpr hl), ih, Option.map_some]
  | numbered hcode _ ih =>
    obtain ⟨a, b, c, d, rfl⟩ := List.length_eq_four.mp hcode.length
    simp only [List.cons_append, List.nil_append, decode?_numbered, codePoint?_bind_char?.mpr hcode, ih,
      Option.bind_some, Option.map_some]

/-! ## Signs -/

theorem Units.append {front rest : List Char} (hfront : Units front) (hrest : Units rest) : Units (front ++ rest) := by
  induction hfront with
  | nil => exact hrest
  | plain hq hb hr hn _ ih => exact .plain hq hb hr hn ih
  | escaped hn _ ih => exact .escaped hn ih

theorem Signed.append {front inside : List Char} (hfront : Units front) (h : Signed inside) :
    Signed (front ++ inside) := by
  obtain ⟨before, rest, rfl, hbefore⟩ := h
  exact ⟨front ++ before, rest, (List.append_assoc ..).symm, hfront.append hbefore⟩

/-- Digits are units of their own. -/
theorem units_digits {digits : List Char} (h : ∀ c ∈ digits, ∃ n, HexDigit c n) (cs : List Char) :
    Units (digits ++ cs) ↔ Units cs := by
  induction digits with
  | nil => rfl
  | cons c digits ih =>
    obtain ⟨⟨n, hn⟩, hdigits⟩ := List.forall_mem_cons.mp h
    obtain ⟨-, hq, hb, hr, he⟩ := hn.plain
    rw [← ih hdigits, List.cons_append]
    generalize digits ++ cs = rest
    refine ⟨fun hunits => ?_, .plain hq hb hr he⟩
    cases hunits with
    | plain _ _ _ _ hrest => exact hrest
    | escaped => exact absurd rfl hb

/-- Where no escape has a sign, what is read is of the grammar. -/
theorem Decodes.of_unsigned {inside xs : List Char} (h : Decodes ReadCode inside xs) (hunits : Units inside)
    (hsign : ¬ Signed inside) : Decodes Code inside xs := by
  induction h with
  | nil => exact .nil
  | @plain c cs xs hc _ ih =>
    cases hunits with
    | plain hq hb hr hn hrest =>
      exact .plain hc (ih hrest fun hsigned => hsign (hsigned.append (.plain hq hb hr hn .nil)))
    | escaped => exact absurd rfl hc
  | @letter l x cs xs hl _ ih =>
    cases hunits with
    | plain _ hb => exact absurd rfl hb
    | escaped hn hrest =>
      exact .letter hl (ih hrest fun hsigned => hsign (hsigned.append (.escaped hn .nil)))
  | @numbered code x cs xs hcode _ ih =>
    cases hunits with
    | plain _ hb => exact absurd rfl hb
    | escaped hn hrest =>
      rcases hcode with hcode | ⟨digits, rfl, -⟩
      · have hdigits := hcode.2.hexDigit
        have hfront : Units ('\\' :: 'u' :: code) := by
          have hunits := (units_digits hdigits []).mpr .nil
          rw [List.append_nil] at hunits
          exact .escaped hn hunits
        exact .numbered hcode (ih ((units_digits hdigits cs).mp hrest) fun hsigned => hsign (hsigned.append hfront))
      · exact absurd ⟨[], digits ++ cs, rfl, .nil⟩ hsign

theorem Decodes.not_signed {inside xs : List Char} (h : Decodes Code inside xs) : ¬ Signed inside := by
  rintro ⟨front, rest, hinside, hfront⟩
  -- the units before the sign are passed over by whole characters and escapes
  induction h generalizing front with
  | nil => simp at hinside
  | plain hc _ ih =>
    cases hfront with
    | nil => exact hc (List.cons.inj hinside).1
    | plain _ _ _ _ hfront => exact ih _ (List.cons.inj hinside).2 hfront
    | escaped => exact hc (List.cons.inj hinside).1
  | letter hl _ ih =>
    cases hfront with
    | nil =>
      cases hinside
      simp [letterEscapes] at hl
    | plain _ hb => exact hb (List.cons.inj hinside).1.symm
    | escaped _ hfront => exact ih _ (List.cons.inj (List.cons.inj hinside).2).2 hfront
  | @numbered code x cs xs hcode _ ih =>
    obtain ⟨hlength, hdenotes⟩ := hcode
    cases hfront with
    | nil =>
      have hcode : code ++ cs = '+' :: rest := by simpa using hinside
      cases code with
      | nil => cases hlength
      | cons c code =>
        rw [(List.cons.inj hcode).1] at hdenotes
        exact not_denotes_sign _ _ hdenotes
    | plain _ hb => exact hb (List.cons.inj hinside).1.symm
    | @escaped _ front _ hfront =>
      have htail : code ++ cs = front ++ '\\' :: 'u' :: '+' :: rest := (List.cons.inj (List.cons.inj hinside).2).2
      rcases List.append_eq_append_iff.mp htail with ⟨more, rfl, hcs⟩ | ⟨more, rfl, hmore⟩
      · exact ih _ hcs ((units_digits hdenotes.hexDigit more).mp hfront)
      · cases more with
        | nil => exact ih [] (by simpa using hmore.symm) .nil
        | cons c more =>
          obtain ⟨n, hn⟩ := hdenotes.hexDigit c (by simp)
          exact hn.plain.2.2.1 (List.cons.inj hmore).1.symm

theorem Decodes.read {inside xs : List Char} (h : Decodes Code inside xs) : Decodes ReadCode inside xs := by
  induction h with
  | nil => exact .nil
  | plain hc _ ih => exact .plain hc ih
  | letter hl _ ih => exact .letter hl ih
  | numbered hcode _ ih => exact .numbered (.inl hcode) ih

/-! ## Literals in a source -/

theorem offGap_literal (inside rest : List Char) : OffGap (literal inside ++ rest) := by
  intro c hc
  cases hc
  decide

section Read

variable {inside rest : List Char} (hunits : Units inside) (hquotes : ¬ tripleQuote <+: literal inside ++ rest)
include hunits hquotes

theorem ofChars_literal :
    Reading.ofChars (literal inside ++ rest) =
      match decode? inside with
      | some value => .ok ⟨.string (String.ofList value), literal inside, rest⟩
      | none => .error (literal inside) := by
  have hcut : literal inside ++ rest = '"' :: (inside ++ '"' :: rest) := by
    simp [literal]
  rw [hcut] at hquotes ⊢
  rw [Reading.ofChars_quote fun more he => hquotes ⟨more, by rw [he]; rfl⟩, Reading.string, body_units hunits]
  rfl

theorem ofChars_of_decodes {value : List Char} (h : Decodes ReadCode inside value) :
    Reading.ofChars (literal inside ++ rest) = .ok ⟨.string (String.ofList value), literal inside, rest⟩ := by
  rw [ofChars_literal hunits hquotes, decode?_eq_some_iff.mpr h]

theorem ofChars_of_not_decodes (h : ∀ value, ¬ Decodes ReadCode inside value) :
    Reading.ofChars (literal inside ++ rest) = .error (literal inside) := by
  have hnone : decode? inside = none :=
    Option.eq_none_iff_forall_ne_some.mpr fun value hvalue => h value (decode?_eq_some_iff.mp hvalue)
  rw [ofChars_literal hunits hquotes, hnone]

theorem ofChars_literal_eq_ok_iff {r : Reading} :
    Reading.ofChars (literal inside ++ rest) = .ok r ↔
      ∃ value, Decodes ReadCode inside value ∧ r = ⟨.string (String.ofList value), literal inside, rest⟩ := by
  constructor
  · intro h
    by_contra hno
    have hnone : ∀ value, ¬ Decodes ReadCode inside value := by
      intro value hvalue
      have hok := ofChars_of_decodes hunits hquotes hvalue
      exact hno ⟨value, hvalue, Except.ok.inj (h.symm.trans hok)⟩
    cases h.symm.trans (ofChars_of_not_decodes hunits hquotes hnone)
  · rintro ⟨value, hvalue, rfl⟩
    exact ofChars_of_decodes hunits hquotes hvalue

end Read

/-- A string literal in a source makes a token exactly if its inside decodes, and the token stands for the
decoded text; otherwise tokenizing fails at the literal. What is read is the grammar of the language, and codes
with a sign besides. -/
theorem tokenize_literal {pieces : List Piece} {gap inside rest : List Char} (hunits : Units inside)
    (hpieces : Piece.Lawful pieces (gap ++ (literal inside ++ rest))) (hgap : Gap gap (literal inside ++ rest))
    (hquotes : ¬ tripleQuote <+: literal inside ++ rest) :
    let source := Piece.allChars pieces ++ (gap ++ (literal inside ++ rest))
    let start := byteLength (Piece.allChars pieces ++ gap)
    let stop := start + byteLength (literal inside)
    (∀ r, Reading.ofChars (literal inside ++ rest) = .ok r ↔
      ∃ value, Decodes ReadCode inside value ∧ r = ⟨.string (String.ofList value), literal inside, rest⟩) ∧
    (∀ value, Decodes ReadCode inside value → Lexeme.scan source = Lexeme.scanFrom
      (⟨.string (String.ofList value), String.ofList (literal inside), start, stop⟩ ::
        (Piece.lexemes 0 pieces).reverse) stop rest) ∧
    ((∀ value, ¬ Decodes ReadCode inside value) → tokenize source =
      .error (.unexpectedCharacter (String.ofList (literal inside)) (Position.ofOffset source start))) ∧
    ∀ value, Decodes Code inside value ↔ Decodes ReadCode inside value ∧ ¬ Signed inside := by
  intro source start stop
  have hsplit := hgap.splitGap_eq (offGap_literal inside rest)
  have hstart : start = byteLength (Piece.allChars pieces) + byteLength gap := byteLength_append _ _
  have hscan : Lexeme.scan source = Lexeme.scanFrom (Piece.lexemes 0 pieces).reverse
      (byteLength (Piece.allChars pieces)) (gap ++ (literal inside ++ rest)) := by
    rw [Lexeme.scan, hpieces.scanFrom_eq, List.append_nil, Nat.zero_add]
  refine ⟨fun r => ofChars_literal_eq_ok_iff hunits hquotes, fun value hvalue => ?_, fun hnone => ?_,
    fun value => ⟨fun h => ⟨h.read, h.not_signed⟩, fun h => h.1.of_unsigned hunits h.2⟩⟩
  · rw [hscan, Lexeme.scanFrom_step _ _ hsplit (ofChars_of_decodes hunits hquotes hvalue), ← hstart]
  · rw [tokenize, hscan, Lexeme.scanFrom_unreadable _ _ hsplit (List.cons_ne_nil _ _)
      (ofChars_of_not_decodes hunits hquotes hnone), ← hstart]
    rfl

/-- A literal with escapes of either form, and behind a name one with the number of a surrogate. -/
theorem tokenize_literal_surrogate :
    Reading.ofChars "\"x\\u00E9\\n\"".toList = .ok ⟨.string "xé\n", "\"x\\u00E9\\n\"".toList, []⟩ ∧
      tokenize "a \"\\ud83d\"".toList = .error (.unexpectedCharacter "\"\\ud83d\"" ⟨1, 3⟩) := by
  constructor
  · have hunits : Units "x\\u00E9\\n".toList := units_body "x\\u00E9\\n\"".toList
    have hdecodes : Decodes ReadCode "x\\u00E9\\n".toList "xé\n".toList := decode?_eq_some_iff.mp (by decide +kernel)
    obtain ⟨hread, -⟩ := @tokenize_literal [] [] _ [] hunits trivial .nil (by decide)
    exact (hread _).mpr ⟨_, hdecodes, rfl⟩
  · let name : Piece := ⟨[], ['a'], .name "a"⟩
    have hunits : Units "\\ud83d".toList := units_body "\\ud83d\"".toList
    have hnone : decode? "\\ud83d".toList = none := by decide +kernel
    have hname : TokenAt "a \"\\ud83d\"".toList name.token name.text :=
      Reading.ofChars_tokenAt (r := ⟨name.token, name.text, " \"\\ud83d\"".toList⟩) rfl
    obtain ⟨-, -, herror, -⟩ := @tokenize_literal [name] [' '] _ [] hunits ⟨.nil, hname, trivial⟩
      (.ignored rfl .nil) (by decide)
    exact herror fun value hvalue => by cases hnone.symm.trans (decode?_eq_some_iff.mpr hvalue)

/-- A plus sign is read in place of a digit, and no text of the grammar has one there. -/
theorem signed_code_read :
    tokenize "\"\\u+041\"".toList = .ok [⟨.string "A", "\"\\u+041\"", 0, 8⟩] ∧
      Units "\\u+041".toList ∧ ∀ value, ¬ Decodes Code "\\u+041".toList value := by
  refine ⟨by decide +kernel, ?_, fun value h => h.not_signed ⟨[], "041".toList, rfl, .nil⟩⟩
  exact units_body "\\u+041\"".toList

end StringLiteral

end SchemaModels
