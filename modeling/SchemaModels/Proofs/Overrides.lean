import SchemaModels.Proofs.Ends
import SchemaModels.Proofs.SettingsInTurn

/-! Overrides read back. An entry `NAME=TARGET` is read exactly if it has an equals sign with something other than
blanks on both sides of the first. What is read is in a normal form: no equals sign in the name, no blanks around
name and target, one spelling of `Any`. Written out, it is read as it is. -/

namespace SchemaModels.ScalarTarget
set_option autoImplicit false

open Text (Bare Filled Strips strips_iff strips_trim)

variable {entry name text right : String} {target : ScalarTarget}

/-- The parts of an entry before and behind its first equals sign. -/
def Cut (entry left right : String) : Prop :=
  entry = left ++ "=" ++ right ∧ '=' ∉ left.toList

theorem sides_iff : Sides entry name right ↔ ∃ left, Cut entry left right ∧ Strips left name := by
  simp only [Sides, Cut, strips_iff, and_assoc]

/-! ## Targets -/

theorem exists_denotes_iff : (∃ target : ScalarTarget, target.Denotes text) ↔ Filled text := by
  rw [← (strips_trim text).ne_empty_iff, Ne, ← ofTrimmed?_eq_none_iff, ← Ne, Option.ne_none_iff_exists']
  exact exists_congr fun target => ofTrimmed?_eq_some_iff.symm

theorem Denotes.eq_any_iff (h : target.Denotes text) :
    target = .any ↔ Text.trim text = "any" ∨ Text.trim text = "Any" := by
  cases target with
  | any => exact iff_of_true rfl h
  | named name =>
    obtain ⟨rfl, -, hlower, hupper⟩ := h
    refine iff_of_false (fun heq => by cases heq) ?_
    exact not_or.mpr ⟨hlower, hupper⟩

theorem Denotes.eq_named (h : target.Denotes text) (hother : target ≠ .any) : target = .named (Text.trim text) := by
  cases target with
  | any => exact absurd rfl hother
  | named name => rw [h.1]

theorem Denotes.identity (h : target.Denotes text) : target.Denotes target.identity := by
  cases target with
  | any => exact Or.inr (by decide +kernel)
  | named name =>
    obtain ⟨rfl, hname⟩ := h
    exact ⟨(strips_trim text).bare.trim_eq.symm, hname⟩

/-! ## Entries -/

theorem exists_parseOverride_iff :
    (∃ row, parseOverride entry = .ok row) ↔ ∃ left right, Cut entry left right ∧ Filled left ∧ Filled right := by
  constructor
  · rintro ⟨⟨name, target⟩, h⟩
    obtain ⟨right, hsides, hname, htarget⟩ := parseOverride_eq_ok_iff.mp h
    obtain ⟨left, hcut, hleft⟩ := sides_iff.mp hsides
    exact ⟨left, right, hcut, hleft.ne_empty_iff.mp hname, exists_denotes_iff.mp ⟨target, htarget⟩⟩
  · rintro ⟨left, right, hcut, hleft, hright⟩
    obtain ⟨target, htarget⟩ := exists_denotes_iff.mpr hright
    have hsides := sides_iff.mpr ⟨left, hcut, strips_trim left⟩
    exact ⟨_, parseOverride_eq_ok_iff.mpr ⟨right, hsides, (strips_trim left).ne_empty_iff.mpr hleft, htarget⟩⟩

theorem sides_of_bare (hbare : Bare name) (hplain : '=' ∉ name.toList) (text : String) :
    Sides (name ++ "=" ++ text) name text :=
  ⟨name, rfl, hplain, hbare.trim_eq.symm⟩

/-- Which entries are read, what is read from them, and that writing it out and reading again changes nothing. -/
theorem parseOverride_reread (entry : String) :
    ((∃ row, parseOverride entry = .ok row) ↔
      ∃ left right, Cut entry left right ∧ Filled left ∧ Filled right) ∧
    ∀ name target, parseOverride entry = .ok (name, target) →
      ('=' ∉ name.toList ∧ Bare name) ∧
      (∃ left right word, Cut entry left right ∧ Strips left name ∧ Strips right word ∧
        (target = .any ↔ word = "any" ∨ word = "Any") ∧ (target ≠ .any → target = .named word)) ∧
      parseOverride (name ++ "=" ++ target.identity) = .ok (name, target) := by
  refine ⟨exists_parseOverride_iff, fun name target h => ?_⟩
  obtain ⟨right, hsides, hname, htarget⟩ := parseOverride_eq_ok_iff.mp h
  obtain ⟨left, hcut, hleft⟩ := sides_iff.mp hsides
  have hplain : '=' ∉ name.toList := fun hmem => hcut.2 (hleft.mem hmem)
  -- name and identity are bare, so both sides of the written entry are their own trimmed texts
  refine ⟨⟨hplain, hleft.bare⟩, ?_, ?_⟩
  · exact ⟨left, right, _, hcut, hleft, strips_trim right, htarget.eq_any_iff, htarget.eq_named⟩
  · exact parseOverride_eq_ok_iff.mpr ⟨_, sides_of_bare hleft.bare hplain _, hname, htarget.identity⟩

/-- Blanks beyond ASCII around both sides, and a target that starts with an equals sign. -/
theorem parseOverride_reread_equals_sign :
    parseOverride "\u3000A\t=\u00a0=any " = .ok ("A", .named "=any") ∧
    parseOverride "A==any" = .ok ("A", .named "=any") := by
  have h : parseOverride "\u3000A\t=\u00a0=any " = .ok ("A", .named "=any") := by rfl
  obtain ⟨-, -, hback⟩ := (parseOverride_reread _).2 _ _ h
  exact ⟨h, hback⟩

end SchemaModels.ScalarTarget
