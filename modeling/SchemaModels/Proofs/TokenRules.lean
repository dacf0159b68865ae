import SchemaModels.Proofs.Spelling

/-! The rules for tokens. A punctuator, a name, a number and a string literal each match texts of one form;
the longest front part of a text that any rule matches is the token there. Where three quotes stand only a
block string counts, which runs to the first three quotes that start outside every escaped three. The
reader of single tokens finds exactly the tokens of these rules. -/

namespace SchemaModels
set_option autoImplicit false

/-! ## Rules and their matches -/

/-- The inside of a string literal. -/
inductive StringLiteral.Units : List Char → Prop
  | nil : Units []
  | plain {c : Char} {cs : List Char} : c ≠ '"' → c ≠ '\\' → c ≠ '\r' → c ≠ '\n' → Units cs → Units (c :: cs)
  | escaped {c : Char} {cs : List Char} : c ≠ '\n' → Units cs → Units ('\\' :: c :: cs)

def Token.punctuators : List Token :=
  [.braceOpen, .braceClose, .parenOpen, .parenClose, .bracketOpen, .bracketClose, .colon, .bang, .equals,
    .atSign, .pipe, .amp, .dollar, .spread]

inductive Rule where
  | punctuator (t : Token)
  | name
  | int
  | float
  | string

namespace Rule

def Matches : Rule → List Char → Prop
  | punctuator t, text => t ∈ Token.punctuators ∧ text = t.display.toList
  | name, text => IsName text
  | int, text => Number.IsInt text
  | float, text => Number.IsFloat text
  | string, text => ∃ inside, text = '"' :: inside ++ ['"'] ∧ StringLiteral.Units inside

/-- The token that a match makes. A string literal makes one only if its inside can be decoded. -/
def token? : Rule → List Char → Option Token
  | punctuator t, _ => some t
  | name, text => some (.name (String.ofList text))
  | int, text => some (.int (String.ofList text))
  | float, text => some (.float (String.ofList text))
  | string, text => (StringLiteral.decode? text.tail.dropLast).map fun value => .string (String.ofList value)

/-- A rule's match at the start of a text that no rule's match is longer than. -/
structure Longest (rule : Rule) (cs text : List Char) : Prop where
  front : text <+: cs
  fits : rule.Matches text
  longest : ∀ other found, found <+: cs → Matches other found → found.length ≤ text.length

end Rule

/-! ## Block strings -/

def tripleQuote : List Char := ['"', '"', '"']

namespace BlockString

/-- Three quotes stand at a place, and the place is inside no escaped three. -/
def FreeQuotes (cs : List Char) (place : Nat) : Prop :=
  tripleQuote <+: cs.drop place ∧ ∀ p, p < place → place < p + 4 → ¬ '\\' :: tripleQuote <+: cs.drop p

/-- What follows three quotes is a body, the first three free quotes, and the rest. -/
structure Closes (cs inside rest : List Char) : Prop where
  split : cs = inside ++ tripleQuote ++ rest
  free : FreeQuotes cs inside.length
  first : ∀ place, place < inside.length → ¬ FreeQuotes cs place

end BlockString

/-- A token stands at the start of a text, spelled `text`. -/
inductive TokenAt : List Char → Token → List Char → Prop
  | rule {cs text : List Char} {t : Token} {rule : Rule} : ¬ tripleQuote <+: cs → rule.Longest cs text →
    rule.token? text = some t → TokenAt cs t text
  | block {cs inside rest : List Char} : BlockString.Closes cs inside rest →
    TokenAt (tripleQuote ++ cs) (.blockString (String.ofList (BlockString.value (BlockString.unescape inside))))
      (tripleQuote ++ inside ++ tripleQuote)

/-! ## Where a block string ends -/

namespace BlockString

theorem not_freeQuotes_nil (place : Nat) : ¬ FreeQuotes [] place := by
  rintro ⟨hquotes, -⟩
  simp [tripleQuote] at hquotes

theorem freeQuotes_zero {cs : List Char} : FreeQuotes cs 0 ↔ tripleQuote <+: cs := by
  simp [FreeQuotes]

/-- Past a character that begins neither three quotes nor an escaped three, the free quotes are those of
the rest. -/
theorem freeQuotes_plain {c : Char} {cs : List Char}
    (hescaped : ∀ rest, c = '\\' → cs = '"' :: '"' :: '"' :: rest → False)
    (hquotes : ∀ rest, c = '"' → cs = '"' :: '"' :: rest → False) (place : Nat) :
    ¬ FreeQuotes (c :: cs) 0 ∧ (FreeQuotes (c :: cs) (place + 1) ↔ FreeQuotes cs place) := by
  refine ⟨fun hfree => ?_, ?_⟩
  · obtain ⟨rest, hrest⟩ := freeQuotes_zero.mp hfree
    obtain ⟨rfl, rfl⟩ := List.cons.inj hrest
    exact hquotes rest rfl rfl
  · have hplain : ¬ '\\' :: tripleQuote <+: c :: cs := by
      rintro ⟨rest, hrest⟩
      obtain ⟨rfl, rfl⟩ := List.cons.inj hrest
      exact hescaped rest rfl rfl
    simp only [FreeQuotes, List.drop_succ_cons]
    refine and_congr_right fun _ => ⟨fun hfree p hp hnear => ?_, fun hfree p hp hnear => ?_⟩
    · exact hfree (p + 1) (by omega) (by omega)
    · cases p with
      | zero => exact hplain
      | succ p => exact hfree p (by omega) (by omega)

/-- No free quotes start inside an escaped three, and what comes after it is as if it stood alone. -/
theorem freeQuotes_escaped (cs : List Char) (place : Nat) :
    (place < 4 → ¬ FreeQuotes ('\\' :: tripleQuote ++ cs) place) ∧
      (FreeQuotes ('\\' :: tripleQuote ++ cs) (place + 4) ↔ FreeQuotes cs place) := by
  have hstart : '\\' :: tripleQuote <+: '\\' :: tripleQuote ++ cs := List.prefix_append _ _
  refine ⟨fun hplace hfree => ?_, ?_⟩
  · cases place with
    | zero => simp [FreeQuotes, tripleQuote] at hfree
    | succ place => exact hfree.2 0 (Nat.succ_pos _) (by omega) hstart
  · simp only [FreeQuotes]
    refine and_congr ?_ ⟨fun hfree p hp hnear => ?_, fun hfree p hp hnear => ?_⟩
    · rfl
    · exact hfree (p + 4) (by omega) (by omega)
    · match p with
      | 0 => omega
      | 1 => simp [tripleQuote]
      | 2 => simp [tripleQuote]
      | 3 => simp [tripleQuote]
      | p + 4 => exact hfree p (by omega) (by omega)

theorem body?_closes {cs : List Char} {r : List Char × List Char} (h : body? cs = some r) : Closes cs r.1 r.2 := by
  fun_induction body? cs generalizing r with
  | case1 => cases h
  | case2 cs ih =>
    obtain ⟨r, hr, rfl⟩ := Option.map_eq_some_iff.mp h
    have hclose := ih hr
    refine ⟨by simp [← body?_append hr, tripleQuote], (freeQuotes_escaped cs _).2.mpr hclose.free, ?_⟩
    intro place hplace hfree
    rcases Nat.lt_or_ge place 4 with hlow | hhigh
    · exact (freeQuotes_escaped cs place).1 hlow hfree
    · obtain ⟨place, rfl⟩ := Nat.exists_eq_add_of_le' hhigh
      simp only [List.length_cons] at hplace
      exact hclose.first place (by omega) ((freeQuotes_escaped cs place).2.mp hfree)
  | case3 cs =>
    cases h
    exact ⟨rfl, freeQuotes_zero.mpr (List.prefix_append _ _), fun _ hplace => absurd hplace (Nat.not_lt_zero _)⟩
  | case4 c cs hescaped hquotes ih =>
    obtain ⟨r, hr, rfl⟩ := Option.map_eq_some_iff.mp h
    have hclose := ih hr
    have hplain := freeQuotes_plain hescaped hquotes
    refine ⟨by simp [← body?_append hr, tripleQuote], (hplain _).2.mpr hclose.free, ?_⟩
    intro place hplace hfree
    cases place with
    | zero => exact (hplain 0).1 hfree
    | succ place =>
      simp only [List.length_cons] at hplace
      exact hclose.first place (by omega) ((hplain place).2.mp hfree)

theorem not_freeQuotes_of_none {cs : List Char} (h : body? cs = none) (place : Nat) : ¬ FreeQuotes cs place := by
  fun_induction body? cs generalizing place with
  | case1 => exact not_freeQuotes_nil place
  | case2 cs ih =>
    rcases Nat.lt_or_ge place 4 with hlow | hhigh
    · exact (freeQuotes_escaped cs place).1 hlow
    · obtain ⟨place, rfl⟩ := Nat.exists_eq_add_of_le' hhigh
      exact fun hfree => ih (Option.map_eq_none_iff.mp h) place ((freeQuotes_escaped cs place).2.mp hfree)
  | case3 cs => cases h
  | case4 c cs hescaped hquotes ih =>
    have hplain := freeQuotes_plain hescaped hquotes
    cases place with
    | zero => exact (hplain 0).1
    | succ place => exact fun hfree => ih (Option.map_eq_none_iff.mp h) place ((hplain place).2.mp hfree)

theorem Closes.unique {cs inside rest inside' rest' : List Char} (h : Closes cs inside rest)
    (h' : Closes cs inside' rest') : inside = inside' ∧ rest = rest' := by
  have hlength : inside.length = inside'.length := by
    rcases Nat.lt_trichotomy inside.length inside'.length with hlt | heq | hgt
    · exact absurd h.free (h'.first _ hlt)
    · exact heq
    · exact absurd h'.free (h.first _ hgt)
  have hsplit : inside ++ (tripleQuote ++ rest) = inside' ++ (tripleQuote ++ rest') := by
    rw [← List.append_assoc, ← List.append_assoc, ← h.split, ← h'.split]
  obtain ⟨hinside, hrest⟩ := List.append_inj hsplit hlength
  exact ⟨hinside, List.append_cancel_left hrest⟩

theorem body?_eq_some_iff {cs inside rest : List Char} : body? cs = some (inside, rest) ↔ Closes cs inside rest := by
  refine ⟨body?_closes, fun h => ?_⟩
  cases hbody : body? cs with
  | none => exact absurd h.free (not_freeQuotes_of_none hbody _)
  | some r =>
    obtain ⟨rfl, rfl⟩ := h.unique (body?_closes hbody)
    rfl

end BlockString

/-! ## How far strings and numbers reach -/

namespace StringLiteral

theorem units_body (cs : List Char) : Units (body cs).1 := by
  fun_induction body cs with
  | case1 => exact .nil
  | case2 => exact .nil
  | case3 c cs hc r ih => exact .escaped hc ih
  | case4 => exact .nil
  | case5 c cs _ hc r ih =>
    simp only [not_or] at hc
    exact .plain hc.1 hc.2.1 hc.2.2.2 hc.2.2.1 ih

/-- The units before a quote are all read. -/
theorem body_units {inside : List Char} (h : Units inside) (rest : List Char) :
    body (inside ++ '"' :: rest) = (inside, '"' :: rest) := by
  induction h with
  | nil => rfl
  | @plain c cs hq hb hr hn _ ih =>
    rw [List.cons_append, body]
    · simp [hq, hb, hr, hn, ih]
    · exact fun _ _ he => absurd he hb
  | @escaped c cs hn _ ih =>
    rw [List.cons_append, List.cons_append, body]
    simp [hn, ih]

end StringLiteral

namespace Number

theorem integer_extend {i : List Char} (hi : IsInteger i) (rest : List Char) :
    ∃ more rest', integer (i ++ rest) = some (i ++ more, rest') := by
  rcases hi with rfl | ⟨⟨hne, hds⟩, hhead⟩
  · exact ⟨[], rest, rfl⟩
  · cases i with
    | nil => exact absurd rfl hne
    | cons c ds =>
      have hc : c ≠ '0' := fun e => hhead (by rw [e]; rfl)
      refine ⟨(digits rest).1, (digits rest).2, ?_⟩
      rw [List.cons_append, integer, if_neg hc, if_pos (hds c List.mem_cons_self), ← List.cons_append,
        digits_extend hds]

/-- What is read of a number reaches at least as far as any number at the start of the text. -/
theorem read?_reaches {text cs : List Char} (h : IsInt text ∨ IsFloat text) (hfront : text <+: cs) :
    ∃ n, read? cs = some n ∧ text.length ≤ n.text.length := by
  obtain ⟨rest, rfl⟩ := hfront
  rcases h with ⟨s, i, rfl, hs, hi⟩ | ⟨_, f, e, rfl, ⟨s, i, rfl, hs, hi⟩, hparts⟩
  · obtain ⟨more, rest', hread⟩ := integer_extend hi rest
    refine ⟨_, by rw [read?, sign_eq hs hi, hread, Option.map_some], ?_⟩
    simp only [List.length_append]
    omega
  -- the fraction or the exponent stops the digits of the integer part
  · have hread : ∀ tail, NoDigit tail → read? (s ++ i ++ tail) =
        some ⟨s ++ i ++ (fraction tail).1 ++ (exponent (fraction tail).2).1,
          !((fraction tail).1 ++ (exponent (fraction tail).2).1).isEmpty, (exponent (fraction tail).2).2⟩ := by
      intro tail htail
      rw [read?, sign_eq hs hi, integer_eq hi htail, Option.map_some]
    rw [List.append_assoc, List.append_assoc]
    rcases hparts with ⟨hf, rfl | he⟩ | ⟨rfl, he⟩
    · refine ⟨_, hread _ (hf.noDigit _), ?_⟩
      simp only [fraction_extend hf, List.length_append, List.length_nil]
      omega
    · refine ⟨_, hread _ (hf.noDigit _), ?_⟩
      simp only [fraction_eq hf (he.noDigit rest), exponent_extend he, List.length_append]
      omega
    · refine ⟨_, hread _ (he.noDigit _), ?_⟩
      simp only [List.nil_append, fraction_none (he.not_point rest), exponent_extend he, List.length_append,
        List.length_nil]
      omega

end Number

/-! ## The rule that a first character leaves -/

namespace Rule

/-- A rule up to the kind of number. -/
def kind : Rule → Rule
  | float => int
  | rule => rule

def ofStart? (c : Char) : Option Rule :=
  if c = '"' then some .string
  else if c = '.' then some (.punctuator .spread)
  else
    match Token.ofChar? c with
    | some t => some (.punctuator t)
    | none => if isNameStart c then some .name else if c.isDigit || c = '-' then some .int else none

theorem ofStart?_name {c : Char} (h : isNameStart c = true) : ofStart? c = some .name := by
  obtain ⟨hnone, hquote, hpoint⟩ := ofChar?_of_nameStart h
  simp [ofStart?, hnone, hquote, hpoint, h]

theorem ofStart?_number {c : Char} (h : c.isDigit = true ∨ c = '-') : ofStart? c = some .int := by
  obtain ⟨hnone, hname, hquote, hpoint⟩ := ofChar?_of_numberStart h
  simp [ofStart?, hnone, hquote, hpoint, hname, h]

theorem Matches.start {rule : Rule} {text : List Char} (h : rule.Matches text) :
    ∃ c cs, text = c :: cs ∧ ofStart? c = some rule.kind := by
  cases rule with
  | punctuator t =>
    obtain ⟨ht, rfl⟩ := h
    simp only [Token.punctuators, List.mem_cons, List.not_mem_nil, or_false] at ht
    rcases ht with rfl | rfl | rfl | rfl | rfl | rfl | rfl | rfl | rfl | rfl | rfl | rfl | rfl | rfl <;>
      exact ⟨_, _, rfl, rfl⟩
  | name =>
    obtain ⟨c, cs, rfl, hc, -⟩ := h
    exact ⟨c, cs, rfl, ofStart?_name hc⟩
  | int =>
    obtain ⟨c, cs, rfl, hc⟩ := Number.IsInt.head h
    exact ⟨c, cs, rfl, ofStart?_number hc⟩
  | float =>
    obtain ⟨c, cs, rfl, hc⟩ := Number.IsFloat.head h
    exact ⟨c, cs, rfl, ofStart?_number hc⟩
  | string =>
    obtain ⟨inside, rfl, -⟩ := h
    exact ⟨'"', inside ++ ['"'], rfl, rfl⟩

/-- All rules that match something at the start of a text are of one kind. -/
theorem Matches.kind_eq {rule : Rule} {c : Char} {cs text : List Char} (h : rule.Matches text)
    (hfront : text <+: c :: cs) : ofStart? c = some rule.kind := by
  obtain ⟨d, ds, rfl, hstart⟩ := h.start
  rwa [(List.cons_prefix_cons.mp hfront).1] at hstart

theorem int_not_float {text : List Char} (hint : Number.IsInt text) : ¬ Number.IsFloat text := by
  intro hfloat
  have hend := atGap_nil.noPart
  have hread := (Number.read?_int hint hend).symm.trans (Number.read?_float hfloat hend)
  cases hread

/-- A text is matched by one rule at most. -/
theorem Matches.unique {rule other : Rule} {text : List Char} (h : rule.Matches text) (h' : other.Matches text) :
    rule = other := by
  obtain ⟨c, cs, rfl, hstart⟩ := h.start
  have hkind : other.kind = rule.kind :=
    Option.some.inj ((h'.kind_eq (List.prefix_refl _)).symm.trans hstart)
  cases rule <;> cases other <;> simp_all [kind]
  case int.float => exact int_not_float h h'
  case float.int => exact int_not_float h' h

/-- A match is longest if it is so among the matches of its kind. -/
theorem longest_of_kind {rule : Rule} {c : Char} {cs text : List Char} (hfront : text <+: c :: cs)
    (hfits : rule.Matches text)
    (h : ∀ other found, kind other = rule.kind → found <+: c :: cs → Matches other found →
      found.length ≤ text.length) : rule.Longest (c :: cs) text := by
  refine ⟨hfront, hfits, fun other found hfound hother => h other found ?_ hfound hother⟩
  exact Option.some.inj ((hother.kind_eq hfound).symm.trans (hfits.kind_eq hfront))

theorem longest_punctuator {t : Token} (ht : t ∈ Token.punctuators) {cs : List Char}
    (hfront : t.display.toList <+: cs) : (punctuator t).Longest cs t.display.toList := by
  have hfits : (punctuator t).Matches t.display.toList := ⟨ht, rfl⟩
  obtain ⟨c, text, htext, -⟩ := hfits.start
  obtain ⟨rest, rfl⟩ := hfront
  rw [htext, List.cons_append]
  rw [htext] at hfits
  apply longest_of_kind ⟨rest, rfl⟩ hfits
  intro other found hkind hfound hother
  cases other with
  | punctuator u =>
    cases hkind
    rw [hother.2, ← hfits.2]
  | _ => cases hkind

theorem longest_name {c : Char} {cs : List Char} (hc : isNameStart c = true) :
    name.Longest (c :: cs) (c :: cs.takeWhile isNamePart) := by
  have hfits : name.Matches (c :: cs.takeWhile isNamePart) := isName_text c cs hc
  apply longest_of_kind (List.cons_prefix_cons.mpr ⟨rfl, List.takeWhile_prefix _⟩) hfits
  intro other found hkind hfound hother
  cases other with
  | name =>
    obtain ⟨d, parts, rfl, -, hparts⟩ := hother
    obtain ⟨-, rest, rfl⟩ := List.cons_prefix_cons.mp hfound
    simp only [List.takeWhile_append_of_pos hparts, List.length_cons, List.length_append]
    omega
  | _ => cases hkind

theorem longest_number {c : Char} {cs : List Char} {n : Number.Literal} (h : Number.read? (c :: cs) = some n) :
    (if n.isFloat then float else int).Longest (c :: cs) n.text := by
  have hclass := Number.read?_class h
  have hfits : (if n.isFloat then float else int).Matches n.text := by
    cases hfloat : n.isFloat with
    | true => exact hclass.1 hfloat
    | false => exact hclass.2 hfloat
  apply longest_of_kind ⟨n.rest, (Number.read?_append h).1⟩ hfits
  intro other found hkind hfound hother
  have hnumber : Number.IsInt found ∨ Number.IsFloat found := by
    cases other with
    | int => exact Or.inl hother
    | float => exact Or.inr hother
    | _ => split at hkind <;> cases hkind
  obtain ⟨m, hm, hlength⟩ := Number.read?_reaches hnumber hfound
  cases h.symm.trans hm
  exact hlength

/-- The string literals at the start of a text are all one. -/
theorem string_at {cs found : List Char} (hfound : found <+: '"' :: cs) (h : string.Matches found) :
    ∃ inside rest, StringLiteral.body cs = (inside, '"' :: rest) ∧ found = '"' :: inside ++ ['"'] := by
  obtain ⟨inside, rfl, hunits⟩ := h
  obtain ⟨rest, hrest⟩ := hfound
  have hcs : cs = inside ++ '"' :: rest := by simpa using (List.cons.inj hrest).2.symm
  exact ⟨inside, rest, by rw [hcs, StringLiteral.body_units hunits], rfl⟩

theorem longest_string {cs inside rest : List Char} (h : StringLiteral.body cs = (inside, '"' :: rest)) :
    string.Longest ('"' :: cs) ('"' :: inside ++ ['"']) := by
  have happ := StringLiteral.body_append cs
  have hunits := StringLiteral.units_body cs
  rw [h] at happ hunits
  have hfits : string.Matches ('"' :: inside ++ ['"']) := ⟨inside, rfl, hunits⟩
  apply longest_of_kind ⟨rest, by simp [← happ]⟩ hfits
  intro other found hkind hfound hother
  cases other with
  | string =>
    obtain ⟨inside', rest', hbody, rfl⟩ := string_at hfound hother
    cases h.symm.trans hbody
    exact Nat.le_refl _
  | _ => cases hkind

end Rule

/-! ## The reader follows the rules -/

namespace Reading

theorem not_tripleQuote {c : Char} {cs : List Char} (h : c ≠ '"') : ¬ tripleQuote <+: c :: cs :=
  fun hfront => h (List.cons_prefix_cons.mp hfront).1.symm

theorem ofChar?_display {c : Char} {t : Token} (h : Token.ofChar? c = some t) :
    t ∈ Token.punctuators ∧ t.display.toList = [c] ∧ c ≠ '"' := by
  unfold Token.ofChar? at h
  split at h <;> cases h <;> decide

theorem blockString_tokenAt {cs : List Char} {r : Reading} (h : blockString cs = .ok r) :
    TokenAt (tripleQuote ++ cs) r.token r.text := by
  unfold blockString at h
  split at h
  · next inside rest hbody =>
    cases h
    exact .block (BlockString.body?_closes hbody)
  · cases h

theorem string_tokenAt {cs : List Char} {r : Reading} (hquotes : ¬ tripleQuote <+: '"' :: cs)
    (h : string cs = .ok r) : TokenAt ('"' :: cs) r.token r.text := by
  unfold string at h
  split at h
  · next inside rest hbody =>
    dsimp only at h
    split at h
    · next value hvalue =>
      cases h
      exact .rule hquotes (Rule.longest_string hbody) (by simp [Rule.token?, hvalue])
    · cases h
  · cases h

theorem ofChars_tokenAt {cs : List Char} {r : Reading} (h : ofChars cs = .ok r) : TokenAt cs r.token r.text := by
  unfold ofChars at h
  split at h
  · cases h
  · exact blockString_tokenAt h
  · next cs hquotes =>
    apply string_tokenAt _ h
    rintro ⟨rest, hrest⟩
    cases hrest
    exact hquotes rest rfl
  · next cs =>
    cases h
    exact .rule (not_tripleQuote (by decide)) (Rule.longest_punctuator (t := .spread) (by decide) ⟨cs, rfl⟩) rfl
  · next c cs _ hquote _ =>
    split at h
    · next t ht =>
      cases h
      obtain ⟨hmem, htext, hc⟩ := ofChar?_display ht
      have hfront : t.display.toList <+: c :: cs := htext ▸ ⟨cs, rfl⟩
      have hlongest := Rule.longest_punctuator hmem hfront
      rw [htext] at hlongest
      exact .rule (not_tripleQuote hc) hlongest rfl
    · split at h
      · next hname =>
        cases h
        exact .rule (not_tripleQuote hquote) (Rule.longest_name hname) rfl
      · split at h
        · next n hn =>
          cases h
          refine .rule (not_tripleQuote hquote) (Rule.longest_number hn) ?_
          cases hfloat : n.isFloat <;> simp [number, hfloat, Rule.token?]
        · cases h

theorem ofChars_of_number {text : List Char} (h : Number.IsInt text ∨ Number.IsFloat text) (rest : List Char) :
    ∃ r, ofChars (text ++ rest) = .ok r := by
  obtain ⟨n, hread, -⟩ := Number.read?_reaches h (List.prefix_append text rest)
  obtain ⟨c, cs, hcons, hc⟩ := h.elim Number.IsInt.head Number.IsFloat.head
  exact ⟨number n, ofChars_number hcons hc hread⟩

theorem ofChars_punctuator {t : Token} (h : t ∈ Token.punctuators) (rest : List Char) :
    ofChars (t.display.toList ++ rest) = .ok ⟨t, t.display.toList, rest⟩ := by
  simp only [Token.punctuators, List.mem_cons, List.not_mem_nil, or_false] at h
  rcases h with rfl | rfl | rfl | rfl | rfl | rfl | rfl | rfl | rfl | rfl | rfl | rfl | rfl | rfl <;> rfl

theorem ofChars_string {text rest : List Char} {t : Token} (hquotes : ¬ tripleQuote <+: text ++ rest)
    (hfits : Rule.string.Matches text) (htoken : Rule.string.token? text = some t) :
    ofChars (text ++ rest) = .ok ⟨t, text, rest⟩ := by
  obtain ⟨inside, rfl, hunits⟩ := hfits
  have hinside : ('"' :: inside ++ ['"']).tail.dropLast = inside := by simp
  rw [Rule.token?, hinside] at htoken
  obtain ⟨value, hvalue, rfl⟩ := Option.map_eq_some_iff.mp htoken
  have hcut : '"' :: inside ++ ['"'] ++ rest = '"' :: (inside ++ '"' :: rest) := by simp
  rw [hcut] at hquotes ⊢
  rw [ofChars_quote]
  · simp only [string, StringLiteral.body_units hunits, hvalue]
  · intro more he
    exact hquotes ⟨more, by rw [he]; rfl⟩

/-- Where a token stands, the reader finds one. -/
theorem ofChars_of_tokenAt {cs text : List Char} {t : Token} (h : TokenAt cs t text) : ∃ r, ofChars cs = .ok r := by
  cases h with
  | @block cs inside rest hcloses =>
    have hbody := BlockString.body?_eq_some_iff.mpr hcloses
    exact ⟨_, show blockString cs = _ by rw [blockString, hbody]⟩
  | @rule _ _ _ rule hquotes hlongest htoken =>
    obtain ⟨rest, rfl⟩ := hlongest.front
    have hfits := hlongest.fits
    cases rule with
    | punctuator u =>
      obtain ⟨hmem, rfl⟩ := hfits
      exact ⟨_, ofChars_punctuator hmem rest⟩
    | name =>
      obtain ⟨c, cs, rfl, hc, -⟩ := hfits
      obtain ⟨hnone, hquote, hpoint⟩ := ofChar?_of_nameStart hc
      refine ⟨name c (cs ++ rest), ?_⟩
      rw [List.cons_append, ofChars_plain hquote hpoint, hnone]
      simp only [hc, if_true]
    | int => exact ofChars_of_number (Or.inl hfits) rest
    | float => exact ofChars_of_number (Or.inr hfits) rest
    | string => exact ⟨_, ofChars_string hquotes hfits htoken⟩

end Reading

theorem TokenAt.unique {cs text text' : List Char} {t t' : Token} (h : TokenAt cs t text) (h' : TokenAt cs t' text') :
    t = t' ∧ text = text' := by
  cases h with
  | rule hquotes hlongest htoken =>
    cases h' with
    | rule _ hlongest' htoken' =>
      have hle := hlongest'.longest _ _ hlongest.front hlongest.fits
      have hge := hlongest.longest _ _ hlongest'.front hlongest'.fits
      have htext := (List.prefix_of_prefix_length_le hlongest.front hlongest'.front hle).eq_of_length_le hge
      subst htext
      cases hlongest.fits.unique hlongest'.fits
      exact ⟨Option.some.inj (htoken.symm.trans htoken'), rfl⟩
    | block => exact absurd (List.prefix_append _ _) hquotes
  | @block cs inside rest hcloses =>
    generalize hcs : tripleQuote ++ cs = all at h'
    cases h' with
    | rule hquotes => exact absurd ⟨cs, hcs⟩ hquotes
    | block hcloses' =>
      cases List.append_cancel_left hcs
      obtain ⟨rfl, -⟩ := hcloses.unique hcloses'
      exact ⟨rfl, rfl⟩

/-- The reader of single tokens finds exactly the tokens of the rules. -/
theorem Reading.ofChars_eq_ok_iff {cs : List Char} {r : Reading} :
    Reading.ofChars cs = .ok r ↔ TokenAt cs r.token r.text ∧ r.text ++ r.rest = cs := by
  refine ⟨fun h => ⟨ofChars_tokenAt h, (ofChars_append h).1⟩, fun ⟨htoken, happ⟩ => ?_⟩
  obtain ⟨s, hs⟩ := ofChars_of_tokenAt htoken
  obtain ⟨ht, htext⟩ := htoken.unique (ofChars_tokenAt hs)
  have hrest := (ofChars_append hs).1
  rw [← htext, ← happ] at hrest
  rw [hs, show s = ⟨s.token, s.text, s.rest⟩ from rfl, ← ht, ← htext, List.append_cancel_left hrest]

/-! ## The text of a token elsewhere -/

namespace BlockString

/-- Whether quotes are free is told by the characters up to their end. -/
theorem freeQuotes_append {front : List Char} {place : Nat} (h : place + 3 ≤ front.length) (rest : List Char) :
    FreeQuotes (front ++ rest) place ↔ FreeQuotes front place := by
  have hlocal : ∀ (text : List Char) (p : Nat), p + text.length ≤ front.length →
      (text <+: (front ++ rest).drop p ↔ text <+: front.drop p) := by
    intro text p hp
    rw [List.drop_append_of_le_length (by omega)]
    refine ⟨fun htext => ?_, fun htext => htext.trans (List.prefix_append _ _)⟩
    apply List.prefix_of_prefix_length_le htext (List.prefix_append _ _)
    rw [List.length_drop]
    omega
  refine and_congr (hlocal tripleQuote place h) (forall_congr' fun p => forall_congr' fun hlt => ?_)
  refine forall_congr' fun _ => not_congr (hlocal _ p ?_)
  simp only [tripleQuote, List.length_cons, List.length_nil]
  omega

theorem Closes.change {cs inside rest : List Char} (h : Closes cs inside rest) (rest' : List Char) :
    Closes (inside ++ tripleQuote ++ rest') inside rest' := by
  have hsame : ∀ place, place ≤ inside.length →
      (FreeQuotes (inside ++ tripleQuote ++ rest') place ↔ FreeQuotes cs place) := by
    intro place hplace
    have hroom : place + 3 ≤ (inside ++ tripleQuote).length := by
      simp only [tripleQuote, List.length_append, List.length_cons, List.length_nil]
      omega
    rw [h.split, freeQuotes_append hroom, freeQuotes_append hroom]
  refine ⟨rfl, (hsame _ (Nat.le_refl _)).mpr h.free, fun place hplace hfree => ?_⟩
  exact h.first place hplace ((hsame place (Nat.le_of_lt hplace)).mp hfree)

end BlockString

/-- Before a gap or the end, the text of a string literal starts no block string. -/
theorem Rule.not_tripleQuote_string {text rest : List Char} (h : string.Matches text) (hrest : AtGap rest) :
    ¬ tripleQuote <+: text ++ rest := by
  obtain ⟨inside, rfl, hunits⟩ := h
  rintro ⟨more, he⟩
  cases hunits with
  | nil =>
    have hquote : rest.head? = some '"' := by
      cases he
      rfl
    exact (hrest.not_part hquote).2.2.2.2.2 rfl
  | plain hq => exact hq (List.cons.inj (List.cons.inj he).2).1.symm
  | escaped => cases he

/-- A text that makes a token somewhere makes it wherever a gap or the end follows. -/
theorem TokenAt.spells {cs text : List Char} {t : Token} (h : TokenAt cs t text) : t.Spells text := by
  cases h with
  | block hcloses =>
    intro rest _
    rw [Reading.ofChars_eq_ok_iff]
    refine ⟨?_, rfl⟩
    have hblock := TokenAt.block (hcloses.change rest)
    simpa using hblock
  | @rule _ _ _ rule _ hlongest htoken =>
    have hfits := hlongest.fits
    have hplain : t.Canonical → t.spelling = text → t.Spells text := fun hcanonical hspelling =>
      hspelling ▸ hcanonical.spells
    cases rule with
    | string => exact fun rest hrest => Reading.ofChars_string (Rule.not_tripleQuote_string hfits hrest) hfits htoken
    | punctuator u =>
      obtain ⟨hmem, rfl⟩ := hfits
      cases htoken
      exact fun rest _ => Reading.ofChars_punctuator hmem rest
    | name =>
      cases htoken
      exact hplain (show IsName _ by rwa [String.toList_ofList]) (String.toList_ofList)
    | int =>
      cases htoken
      exact hplain (show Number.IsInt _ by rwa [String.toList_ofList]) (String.toList_ofList)
    | float =>
      cases htoken
      exact hplain (show Number.IsFloat _ by rwa [String.toList_ofList]) (String.toList_ofList)

end SchemaModels
