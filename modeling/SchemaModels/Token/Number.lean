/-! Number literals: an optional minus sign and an integer part without a leading zero, then an
optional fraction and an optional exponent, each taken only if it is complete. -/

namespace SchemaModels.Number
set_option autoImplicit false

/-- Splits off the leading digits. -/
def digits (cs : List Char) : List Char × List Char :=
  (cs.takeWhile Char.isDigit, cs.dropWhile Char.isDigit)

/-- Splits off an optional minus sign. -/
def sign : List Char → List Char × List Char
  | '-' :: cs => (['-'], cs)
  | cs => ([], cs)

/-- Splits off a lone zero or a run of digits that starts with no zero. -/
def integer : List Char → Option (List Char × List Char)
  | [] => none
  | c :: cs =>
    if c = '0' then some (['0'], cs)
    else if c.isDigit then some (digits (c :: cs))
    else none

/-- Splits off a point with at least one digit after it; nothing if there is none. -/
def fraction : List Char → List Char × List Char
  | '.' :: cs =>
    match digits cs with
    | ([], _) => ([], '.' :: cs)
    | (ds, rest) => ('.' :: ds, rest)
  | cs => ([], cs)

/-- Splits off an optional sign of an exponent. -/
def exponentSign : List Char → List Char × List Char
  | [] => ([], [])
  | c :: cs => if c = '+' ∨ c = '-' then ([c], cs) else ([], c :: cs)

/-- Splits off an exponent with at least one digit; nothing if there is none. -/
def exponent : List Char → List Char × List Char
  | [] => ([], [])
  | c :: cs =>
    if c = 'e' ∨ c = 'E' then
      let s := exponentSign cs
      match digits s.2 with
      | ([], _) => ([], c :: cs)
      | (ds, rest) => (c :: s.1 ++ ds, rest)
    else ([], c :: cs)

/-- A number literal at the start of a text. -/
structure Literal where
  text : List Char
  /-- Whether it has a fraction or an exponent. -/
  isFloat : Bool
  rest : List Char

/-- The longest number literal at the start of a text. -/
def read? (cs : List Char) : Option Literal :=
  let s := sign cs
  (integer s.2).map fun i =>
    let f := fraction i.2
    let e := exponent f.2
    ⟨s.1 ++ i.1 ++ f.1 ++ e.1, !(f.1 ++ e.1).isEmpty, e.2⟩

/-! ## Nothing is lost -/

theorem digits_append (cs : List Char) : (digits cs).1 ++ (digits cs).2 = cs :=
  List.takeWhile_append_dropWhile

theorem sign_append (cs : List Char) : (sign cs).1 ++ (sign cs).2 = cs := by
  unfold sign
  split <;> rfl

theorem integer_append {cs : List Char} {i : List Char × List Char} (h : integer cs = some i) :
    i.1 ++ i.2 = cs ∧ i.1 ≠ [] := by
  cases cs with
  | nil => simp [integer] at h
  | cons c cs =>
    rw [integer] at h
    split at h
    · next hc =>
      cases h
      exact ⟨by rw [hc]; rfl, List.cons_ne_nil _ _⟩
    · split at h
      · next hd =>
        cases h
        exact ⟨digits_append _, by simp [digits, List.takeWhile, hd]⟩
      · exact nomatch h

theorem fraction_append (cs : List Char) : (fraction cs).1 ++ (fraction cs).2 = cs := by
  unfold fraction
  split
  · next cs =>
    have h := digits_append cs
    split
    · rfl
    · next hd =>
      rw [hd] at h
      simpa using h
  · rfl

theorem exponentSign_append (cs : List Char) :
    (exponentSign cs).1 ++ (exponentSign cs).2 = cs := by
  unfold exponentSign
  split
  · rfl
  · split <;> rfl

theorem exponent_append (cs : List Char) : (exponent cs).1 ++ (exponent cs).2 = cs := by
  unfold exponent
  split
  · rfl
  · next c cs =>
    split
    · have hs := exponentSign_append cs
      have h := digits_append (exponentSign cs).2
      dsimp only
      split
      · rfl
      · next hd =>
        rw [hd] at h
        simp only [List.cons_append, List.append_assoc, List.cons.injEq, true_and]
        rw [show _ ++ _ = (exponentSign cs).2 from h, hs]
    · rfl

/-- A number literal and what follows it make up the text. -/
theorem read?_append {cs : List Char} {n : Literal} (h : read? cs = some n) :
    n.text ++ n.rest = cs ∧ n.text ≠ [] := by
  unfold read? at h
  obtain ⟨i, hi, rfl⟩ := Option.map_eq_some_iff.mp h
  obtain ⟨happ, hne⟩ := integer_append hi
  refine ⟨?_, by simp [hne]⟩
  dsimp only
  rw [List.append_assoc, exponent_append, List.append_assoc, fraction_append, List.append_assoc,
    happ, sign_append]

end SchemaModels.Number
