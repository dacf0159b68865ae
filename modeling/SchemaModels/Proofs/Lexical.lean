import Mathlib.Data.List.TakeWhile
import SchemaModels.Lexeme

/-! The lexical classes: which texts are names, integers and floats. Every token that a text is
read as belongs to its class. -/

namespace SchemaModels
set_option autoImplicit false

/-! ## Classes -/

/-- A letter or underscore, then letters, digits and underscores. -/
def IsName (cs : List Char) : Prop :=
  ∃ c rest, cs = c :: rest ∧ isNameStart c = true ∧ ∀ x ∈ rest, isNamePart x = true

instance (cs : List Char) : Decidable (IsName cs) :=
  match cs with
  | [] => .isFalse fun ⟨_, _, h, _⟩ => nomatch h
  | c :: rest =>
    decidable_of_iff (isNameStart c = true ∧ rest.all isNamePart = true)
      ⟨fun h => ⟨c, rest, rfl, h.1, List.all_eq_true.mp h.2⟩,
        fun ⟨_, _, he, hc, hrest⟩ => by cases he; exact ⟨hc, List.all_eq_true.mpr hrest⟩⟩

namespace Number

/-- One or more digits. -/
def IsDigits (cs : List Char) : Prop :=
  cs ≠ [] ∧ ∀ c ∈ cs, c.isDigit = true

/-- A lone zero, or digits that start with no zero. -/
def IsInteger (cs : List Char) : Prop :=
  cs = ['0'] ∨ IsDigits cs ∧ cs.head? ≠ some '0'

/-- An integer with or without a minus sign. -/
def IsInt (cs : List Char) : Prop :=
  ∃ s i, cs = s ++ i ∧ (s = [] ∨ s = ['-']) ∧ IsInteger i

/-- A point with digits after it. -/
def IsFraction (cs : List Char) : Prop :=
  ∃ ds, cs = '.' :: ds ∧ IsDigits ds

/-- The letter `e` in either case, an optional sign, and digits. -/
def IsExponent (cs : List Char) : Prop :=
  ∃ e s ds, cs = e :: s ++ ds ∧ (e = 'e' ∨ e = 'E') ∧ (s = [] ∨ s = ['+'] ∨ s = ['-']) ∧ IsDigits ds

/-- An integer with a fraction, an exponent or both. -/
def IsFloat (cs : List Char) : Prop :=
  ∃ i f e, cs = i ++ f ++ e ∧ IsInt i ∧
    (IsFraction f ∧ (e = [] ∨ IsExponent e) ∨ f = [] ∧ IsExponent e)

end Number

namespace Token

/-- Names and numbers carry texts of their class. -/
def Lexical : Token → Prop
  | name text => IsName text.toList
  | int text => Number.IsInt text.toList
  | float text => Number.IsFloat text.toList
  | _ => True

end Token

/-! ## What numbers are read as -/

namespace Number

theorem isDigits_digits {cs : List Char} (h : (digits cs).1 ≠ []) : IsDigits (digits cs).1 :=
  ⟨h, fun _ hc => List.mem_takeWhile_imp hc⟩

theorem isInteger_integer {cs : List Char} {i : List Char × List Char} (h : integer cs = some i) :
    IsInteger i.1 := by
  cases cs with
  | nil => cases h
  | cons c cs =>
    rw [integer] at h
    split at h
    · cases h
      exact Or.inl rfl
    · next hc =>
      split at h
      · next hd =>
        cases h
        have hhead : (digits (c :: cs)).1 = c :: (digits cs).1 := by simp [digits, hd]
        refine Or.inr ⟨isDigits_digits (by rw [hhead]; exact List.cons_ne_nil _ _), ?_⟩
        rw [hhead, List.head?_cons]
        exact fun he => hc (Option.some.inj he)
      · cases h

theorem sign_cases (cs : List Char) : (sign cs).1 = [] ∨ (sign cs).1 = ['-'] := by
  unfold sign
  split
  · exact Or.inr rfl
  · exact Or.inl rfl

theorem fraction_cases (cs : List Char) : (fraction cs).1 = [] ∨ IsFraction (fraction cs).1 := by
  unfold fraction
  split
  · next cs =>
    split
    · exact Or.inl rfl
    · next ds rest hne hd =>
      have hds : (digits cs).1 = ds := by rw [hd]
      exact Or.inr ⟨ds, rfl, hds ▸ isDigits_digits (hds ▸ hne)⟩
  · exact Or.inl rfl

theorem exponentSign_cases (cs : List Char) :
    (exponentSign cs).1 = [] ∨ (exponentSign cs).1 = ['+'] ∨ (exponentSign cs).1 = ['-'] := by
  unfold exponentSign
  split
  · exact Or.inl rfl
  · split
    · next hc => rcases hc with rfl | rfl <;> simp
    · exact Or.inl rfl

theorem exponent_cases (cs : List Char) : (exponent cs).1 = [] ∨ IsExponent (exponent cs).1 := by
  unfold exponent
  split
  · exact Or.inl rfl
  · next c cs =>
    split
    · next hc =>
      dsimp only
      split
      · exact Or.inl rfl
      · next ds rest hne hd =>
        have hds : (digits (exponentSign cs).2).1 = ds := by rw [hd]
        exact Or.inr ⟨c, _, ds, rfl, hc, exponentSign_cases cs, hds ▸ isDigits_digits (hds ▸ hne)⟩
    · exact Or.inl rfl

theorem IsFraction.ne_nil {cs : List Char} (h : IsFraction cs) : cs ≠ [] := by
  obtain ⟨ds, rfl, -⟩ := h
  exact List.cons_ne_nil _ _

theorem IsExponent.ne_nil {cs : List Char} (h : IsExponent cs) : cs ≠ [] := by
  obtain ⟨e, s, ds, rfl, -⟩ := h
  exact List.cons_ne_nil _ _

/-- A number that is read belongs to the class that it is read as. -/
theorem read?_class {cs : List Char} {n : Literal} (h : read? cs = some n) :
    (n.isFloat = true → IsFloat n.text) ∧ (n.isFloat = false → IsInt n.text) := by
  unfold read? at h
  obtain ⟨i, hi, rfl⟩ := Option.map_eq_some_iff.mp h
  have hint : IsInt ((sign cs).1 ++ i.1) := ⟨_, _, rfl, sign_cases cs, isInteger_integer hi⟩
  dsimp only
  rcases fraction_cases i.2 with hf | hf <;> rcases exponent_cases (fraction i.2).2 with he | he
  · simpa [hf, he] using hint
  · refine ⟨fun _ => ⟨_, _, _, rfl, hint, Or.inr ⟨hf, he⟩⟩, fun hn => ?_⟩
    simp [he.ne_nil] at hn
  · refine ⟨fun _ => ⟨_, _, _, rfl, hint, Or.inl ⟨hf, Or.inl he⟩⟩, fun hn => ?_⟩
    simp [hf.ne_nil] at hn
  · refine ⟨fun _ => ⟨_, _, _, rfl, hint, Or.inl ⟨hf, Or.inr he⟩⟩, fun hn => ?_⟩
    simp [hf.ne_nil] at hn

end Number

/-! ## What texts are read as -/

theorem isName_text (c : Char) (cs : List Char) (h : isNameStart c = true) :
    IsName (Reading.name c cs).text :=
  ⟨c, _, rfl, h, fun _ hx => List.mem_takeWhile_imp hx⟩

theorem Token.lexical_of_ofChar? {c : Char} {t : Token} (h : Token.ofChar? c = some t) : t.Lexical := by
  unfold Token.ofChar? at h
  split at h <;> cases h <;> trivial

/-- Every token that is read belongs to its class. -/
theorem Reading.ofChars_lexical {cs : List Char} {r : Reading} (h : Reading.ofChars cs = .ok r) :
    r.token.Lexical := by
  unfold Reading.ofChars at h
  split at h
  · cases h
  · unfold Reading.blockString at h
    split at h
    · cases h
      trivial
    · cases h
  · unfold Reading.string at h
    split at h
    · dsimp only at h
      split at h
      · cases h
        trivial
      · cases h
    · cases h
  · cases h
    trivial
  · split at h
    · next ht =>
      cases h
      exact Token.lexical_of_ofChar? ht
    · split at h
      · next hc =>
        cases h
        simpa [Reading.name, Token.Lexical] using isName_text _ _ hc
      · split at h
        · next n hn =>
          cases h
          have hclass := Number.read?_class hn
          unfold Reading.number
          cases hf : n.isFloat with
          | true => simpa [Token.Lexical] using hclass.1 hf
          | false => simpa [Token.Lexical] using hclass.2 hf
        · cases h

end SchemaModels
