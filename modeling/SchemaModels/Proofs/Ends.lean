import Mathlib.Data.List.DropRight
import SchemaModels.Text.Blank

/-! Ends. A list loses the entries of a kind at both ends: what is left neither starts nor ends with one and has
nothing but such entries around it, and only one part of the list is like that. A text loses its blanks so; what is
left loses nothing more, and it is empty if the text holds blanks only. -/

namespace SchemaModels
set_option autoImplicit false

section Lists

variable {α : Type} {p : α → Bool} {as kept : List α}

theorem not_of_head_dropWhile {a : α} (h : (as.dropWhile p).head? = some a) : p a = false := by
  have hnot := List.head?_dropWhile_not p as
  rwa [h] at hnot

theorem dropWhile_of_head (h : ∀ a, as.head? = some a → p a = false) : as.dropWhile p = as := by
  cases as with
  | nil => rfl
  | cons a as => simp [h a rfl]

theorem head?_rdropWhile {a : α} (h : (as.rdropWhile p).head? = some a) : as.head? = some a := by
  obtain ⟨back, hback⟩ := List.rdropWhile_prefix p as
  rw [← hback, List.head?_append, h]
  rfl

theorem exists_ends (p : α → Bool) (as : List α) :
    ∃ front back, as = front ++ (as.dropWhile p).rdropWhile p ++ back ∧ (∀ a ∈ front ++ back, p a = true) ∧
      ∀ a, ((as.dropWhile p).rdropWhile p).head? = some a ∨ ((as.dropWhile p).rdropWhile p).getLast? = some a →
        p a = false := by
  refine ⟨as.takeWhile p, (as.dropWhile p).rtakeWhile p, ?_, ?_, ?_⟩
  · rw [List.append_assoc, List.rdropWhile_append_rtakeWhile, List.takeWhile_append_dropWhile]
  · exact List.forall_mem_append.mpr ⟨fun _ => List.mem_takeWhile_imp, fun _ => List.mem_rtakeWhile_imp⟩
  · rintro a (hhead | hlast)
    · exact not_of_head_dropWhile (head?_rdropWhile hhead)
    · rw [List.rdropWhile, List.getLast?_reverse] at hlast
      exact not_of_head_dropWhile hlast

theorem dropWhile_rdropWhile_eq {front back : List α} (hblank : ∀ a ∈ front ++ back, p a = true)
    (hends : ∀ a, kept.head? = some a ∨ kept.getLast? = some a → p a = false) :
    ((front ++ kept ++ back).dropWhile p).rdropWhile p = kept := by
  obtain ⟨hfront, hback⟩ := List.forall_mem_append.mp hblank
  have hlast : (kept ++ back).rdropWhile p = kept := by
    rw [List.rdropWhile, List.reverse_append,
      List.dropWhile_append_of_pos fun a ha => hback a (List.mem_reverse.mp ha),
      dropWhile_of_head fun a ha => hends a (Or.inr (by rwa [List.head?_reverse] at ha)), List.reverse_reverse]
  rw [List.append_assoc, List.dropWhile_append_of_pos hfront]
  -- if nothing is kept, what is dropped in front goes on through `back`
  cases kept with
  | nil => simp [List.dropWhile_eq_nil_iff.mpr hback]
  | cons a kept =>
    have hfirst : (a :: kept ++ back).dropWhile p = a :: kept ++ back :=
      dropWhile_of_head fun b hb => hends b (Or.inl hb)
    rw [hfirst, hlast]

theorem eq_rdropWhile_iff :
    kept = (as.dropWhile p).rdropWhile p ↔
      ∃ front back, as = front ++ kept ++ back ∧ (∀ a ∈ front ++ back, p a = true) ∧
        ∀ a, kept.head? = some a ∨ kept.getLast? = some a → p a = false := by
  constructor
  · rintro rfl
    exact exists_ends p as
  · rintro ⟨front, back, rfl, hblank, hends⟩
    exact (dropWhile_rdropWhile_eq hblank hends).symm

end Lists

/-! ## Blanks around a text -/

namespace Text

variable {text kept : String}

/-- Neither end of a text is blank. -/
def Bare (text : String) : Prop :=
  ∀ c, text.toList.head? = some c ∨ text.toList.getLast? = some c → isBlank c = false

/-- What is left of a text without the blanks around it. -/
def Strips (text kept : String) : Prop :=
  ∃ front back, text = front ++ kept ++ back ∧ (∀ c ∈ front.toList ++ back.toList, isBlank c = true) ∧ Bare kept

/-- Some character of a text is not blank. -/
def Filled (text : String) : Prop :=
  ∃ c ∈ text.toList, isBlank c = false

theorem strips_iff : Strips text kept ↔ kept = trim text := by
  have hends : trimmed text.toList = (text.toList.dropWhile isBlank).rdropWhile isBlank := rfl
  rw [trim, ← String.toList_inj, String.toList_ofList, hends, eq_rdropWhile_iff]
  constructor
  · rintro ⟨front, back, rfl, hblank, hbare⟩
    exact ⟨front.toList, back.toList, by simp, hblank, hbare⟩
  · rintro ⟨front, back, htext, hblank, hbare⟩
    refine ⟨String.ofList front, String.ofList back, ?_, by simpa using hblank, hbare⟩
    rw [← String.toList_inj, htext]
    simp

theorem strips_trim (text : String) : Strips text (trim text) :=
  strips_iff.mpr rfl

theorem Strips.bare (h : Strips text kept) : Bare kept := by
  obtain ⟨-, -, -, -, hbare⟩ := h
  exact hbare

theorem Bare.trim_eq (h : Bare text) : trim text = text :=
  (strips_iff.mp ⟨"", "", by simp, by simp, h⟩).symm

theorem Strips.mem {c : Char} (h : Strips text kept) (hc : c ∈ kept.toList) : c ∈ text.toList := by
  obtain ⟨front, back, rfl, -, -⟩ := h
  simp [hc]

theorem Strips.ne_empty_iff (h : Strips text kept) : kept ≠ "" ↔ Filled text := by
  constructor
  · intro hne
    obtain ⟨c, cs, hkept⟩ := List.exists_cons_of_ne_nil (String.toList_eq_nil_iff.not.mpr hne)
    refine ⟨c, h.mem (by simp [hkept]), h.bare c (Or.inl ?_)⟩
    rw [hkept, List.head?_cons]
  · rintro ⟨c, hc, hfull⟩ rfl
    obtain ⟨front, back, rfl, hblank, -⟩ := h
    have hc' : isBlank c = true := hblank c (by simpa using hc)
    rw [hfull] at hc'
    cases hc'

end Text

end SchemaModels
