import Mathlib.Data.List.TakeWhile
import SchemaModels.Proofs.Registry
import SchemaModels.Settings

/-! Settings in turn. A setting names a style, or gives a target to a scalar, or is invalid. Added in turn, the
first invalid setting is what is reported; if there is none, the last setting under a name counts, and nothing
that comes before or under other names does. -/

namespace SchemaModels
set_option autoImplicit false

/-! ## Names of styles and targets -/

namespace EnumStyle

def names : EnumStyle → List String
  | strEnum => ["str-enum", "StrEnum"]
  | strMixin => ["str-mixin", "str, Enum"]

theorem parse_of_mem {name : String} {style : EnumStyle} (h : name ∈ style.names) : parse name = .ok style := by
  cases style <;> simp only [names, List.mem_cons, List.not_mem_nil, or_false] at h
  · rw [parse, if_pos h]
  · have hother : ¬ (name = "str-enum" ∨ name = "StrEnum") := by rcases h with rfl | rfl <;> decide
    rw [parse, if_neg hother, if_pos h]

theorem parse_of_not_mem {name : String} (h : ∀ style : EnumStyle, name ∉ style.names) :
    parse name = .error (.unknownEnumStyle name) := by
  have hplain := h strEnum
  have hmixin := h strMixin
  simp only [names, List.mem_cons, List.not_mem_nil, or_false] at hplain hmixin
  rw [parse, if_neg hplain, if_neg hmixin]

end EnumStyle

namespace ScalarTarget

/-- A text stands for a target; blanks around it do not count. -/
def Denotes (text : String) : ScalarTarget → Prop
  | any => Text.trim text = "any" ∨ Text.trim text = "Any"
  | named name => name = Text.trim text ∧ name ≠ "" ∧ name ≠ "any" ∧ name ≠ "Any"

theorem ofTrimmed?_eq_some_iff {text : String} {target : ScalarTarget} :
    ofTrimmed? (Text.trim text) = some target ↔ target.Denotes text := by
  unfold ofTrimmed?
  split
  · next hempty => cases target <;> simp +contextual [Denotes, hempty]
  · next hempty =>
    split
    · next hany =>
      cases target with
      | any => simp [Denotes, hany]
      | named name =>
        refine iff_of_false (by simp) ?_
        rintro ⟨rfl, -, hlower, hupper⟩
        exact hany.elim hlower hupper
    · next hany =>
      rw [not_or] at hany
      cases target with
      | any => simp [Denotes, hany]
      | named name =>
        rw [Option.some.injEq, named.injEq]
        exact ⟨fun h => h ▸ ⟨rfl, hempty, hany⟩, fun h => h.1.symm⟩

theorem ofTrimmed?_eq_none_iff {text : String} : ofTrimmed? text = none ↔ text = "" := by
  unfold ofTrimmed?
  split
  · next h => simp [h]
  · next h => split <;> simp [h]

/-- An entry of the command line, cut at its first equals sign. -/
def Sides (entry name text : String) : Prop :=
  ∃ left, entry = left ++ "=" ++ text ∧ '=' ∉ left.toList ∧ name = Text.trim left

theorem exists_sides {entry : String} (h : '=' ∈ entry.toList) : ∃ name text, Sides entry name text := by
  obtain ⟨left, right, hentry, hleft⟩ := List.eq_append_cons_of_mem h
  refine ⟨_, String.ofList right, String.ofList left, ?_, by simpa using hleft, rfl⟩
  rw [← String.toList_inj, hentry]
  simp

theorem parseOverride_of_not_mem {entry : String} (h : '=' ∉ entry.toList) :
    parseOverride entry = .error (.invalidScalar entry .noTarget) := by
  have hnone : entry.toList.dropWhile (· ≠ '=') = [] :=
    List.dropWhile_eq_nil_iff.mpr fun c hc => decide_eq_true fun he => h (he ▸ hc)
  simp only [parseOverride, hnone]

theorem Sides.parseOverride_eq {entry name text : String} (h : Sides entry name text) :
    parseOverride entry =
      if name = "" then .error (.invalidScalar entry .emptyName)
      else
        match ofTrimmed? (Text.trim text) with
        | some target => .ok (name, target)
        | none => .error (.invalidScalar entry .emptyTarget) := by
  obtain ⟨left, hentry, hleft, rfl⟩ := h
  have hchars : entry.toList = left.toList ++ '=' :: text.toList := by simp [hentry]
  have hplain : ∀ c ∈ left.toList, decide (c ≠ '=') = true := fun c hc =>
    decide_eq_true fun he => hleft (he ▸ hc)
  have htake : entry.toList.takeWhile (· ≠ '=') = left.toList := by
    rw [hchars, List.takeWhile_append_of_pos hplain]
    simp
  have hdrop : entry.toList.dropWhile (· ≠ '=') = '=' :: text.toList := by
    rw [hchars, List.dropWhile_append_of_pos hplain]
    simp
  simp only [parseOverride, hdrop, htake, Text.trim]
  cases ofTrimmed? (String.ofList (Text.trimmed text.toList)) <;> rfl

theorem parseOverride_eq_ok_iff {entry name : String} {target : ScalarTarget} :
    parseOverride entry = .ok (name, target) ↔ ∃ text, Sides entry name text ∧ name ≠ "" ∧ target.Denotes text := by
  constructor
  · intro h
    by_cases hmem : '=' ∈ entry.toList
    · obtain ⟨left, text, hsides⟩ := exists_sides hmem
      rw [hsides.parseOverride_eq] at h
      split at h
      · cases h
      · next hname =>
        split at h
        · next htarget =>
          cases h
          exact ⟨text, hsides, hname, ofTrimmed?_eq_some_iff.mp htarget⟩
        · cases h
    · rw [parseOverride_of_not_mem hmem] at h
      cases h
  · rintro ⟨text, hsides, hname, htarget⟩
    rw [hsides.parseOverride_eq, if_neg hname, ofTrimmed?_eq_some_iff.mpr htarget]

end ScalarTarget

theorem bind_eq_ok_iff {ε α β : Type} {x : Except ε α} {f : α → Except ε β} {b : β} :
    x >>= f = .ok b ↔ ∃ a, x = .ok a ∧ f a = .ok b := by
  cases x with
  | error e =>
    refine iff_of_false (fun h => by cases h) ?_
    rintro ⟨_, h, -⟩
    cases h
  | ok a =>
    refine ⟨fun h => ⟨a, rfl, h⟩, ?_⟩
    rintro ⟨_, ⟨⟩, h⟩
    exact h

/-! ## Settings one by one -/

/-- A setting as it is written: the name of a style, a row of the settings file or an entry of the command
line. -/
inductive Setting where
  | style (name : String)
  | row (name text : String)
  | entry (text : String)

namespace Settings

/-- Settings with one more. -/
def add (settings : Settings) : Setting → Except SettingError Settings
  | .style name => (EnumStyle.parse name).map settings.setEnumStyle
  | .row name text => (ScalarTarget.parse text).map (settings.setScalar name)
  | .entry text => (ScalarTarget.parseOverride text).map fun row => settings.setScalar row.1 row.2

def addAll (settings : Settings) (ss : List Setting) : Except SettingError Settings :=
  ss.foldlM add settings

end Settings

namespace Setting

open ScalarTarget

/-- A setting gives a target to a name. -/
inductive Sets : Setting → String → ScalarTarget → Prop
  | row {name text : String} {target : ScalarTarget} : target.Denotes text → Sets (row name text) name target
  | entry {text name right : String} {target : ScalarTarget} : Sides text name right → name ≠ "" →
    target.Denotes right → Sets (entry text) name target

/-- What is wrong with a setting. -/
inductive Invalid : Setting → SettingError → Prop
  | style {name : String} : (∀ style : EnumStyle, name ∉ style.names) → Invalid (style name) (.unknownEnumStyle name)
  | row {name text : String} : Text.trim text = "" → Invalid (row name text) (.invalidScalar text .emptyTarget)
  | noTarget {text : String} : '=' ∉ text.toList → Invalid (entry text) (.invalidScalar text .noTarget)
  | emptyName {text right : String} : Sides text "" right → Invalid (entry text) (.invalidScalar text .emptyName)
  | emptyTarget {text name right : String} : Sides text name right → name ≠ "" → Text.trim right = "" →
    Invalid (entry text) (.invalidScalar text .emptyTarget)

/-- The error of the first setting that is invalid. -/
inductive FirstInvalid : List Setting → SettingError → Prop
  | here {s : Setting} {ss : List Setting} {error : SettingError} : s.Invalid error → FirstInvalid (s :: ss) error
  | later {s : Setting} {ss : List Setting} {error : SettingError} : (∀ e, ¬ s.Invalid e) → FirstInvalid ss error →
    FirstInvalid (s :: ss) error

/-- No setting gives a target to a name. -/
def Unset (name : String) (ss : List Setting) : Prop :=
  ∀ s ∈ ss, ∀ target, ¬ s.Sets name target

/-- The target that the last setting under a name gives to it. -/
inductive LastSets (name : String) : List Setting → ScalarTarget → Prop
  | here {s : Setting} {ss : List Setting} {target : ScalarTarget} : s.Sets name target → Unset name ss →
    LastSets name (s :: ss) target
  | later {s : Setting} {ss : List Setting} {target : ScalarTarget} : LastSets name ss target →
    LastSets name (s :: ss) target

theorem valid_or_invalid (s : Setting) :
    (∃ name style, s = .style name ∧ name ∈ EnumStyle.names style) ∨ (∃ name target, s.Sets name target) ∨
      ∃ error, s.Invalid error := by
  cases s with
  | style name =>
    by_cases h : ∃ style : EnumStyle, name ∈ style.names
    · obtain ⟨style, h⟩ := h
      exact Or.inl ⟨name, style, rfl, h⟩
    · exact Or.inr (Or.inr ⟨_, .style (not_exists.mp h)⟩)
  | row name text =>
    cases h : ofTrimmed? (Text.trim text) with
    | none => exact Or.inr (Or.inr ⟨_, .row (ofTrimmed?_eq_none_iff.mp h)⟩)
    | some target => exact Or.inr (Or.inl ⟨name, target, .row (ofTrimmed?_eq_some_iff.mp h)⟩)
  | entry text =>
    by_cases hmem : '=' ∈ text.toList
    · obtain ⟨name, right, hsides⟩ := exists_sides hmem
      by_cases hname : name = ""
      · exact Or.inr (Or.inr ⟨_, .emptyName (hname ▸ hsides)⟩)
      · cases h : ofTrimmed? (Text.trim right) with
        | none => exact Or.inr (Or.inr ⟨_, .emptyTarget hsides hname (ofTrimmed?_eq_none_iff.mp h)⟩)
        | some target => exact Or.inr (Or.inl ⟨name, target, .entry hsides hname (ofTrimmed?_eq_some_iff.mp h)⟩)
    · exact Or.inr (Or.inr ⟨_, .noTarget hmem⟩)

variable {s : Setting} {ss : List Setting} {settings last : Settings} {name : String} {target : ScalarTarget}
  {error : SettingError}

/-! ## One more setting -/

theorem add_style {style : EnumStyle} (h : name ∈ style.names) (settings : Settings) :
    settings.add (.style name) = .ok (settings.setEnumStyle style) := by
  rw [Settings.add, EnumStyle.parse_of_mem h]
  rfl

theorem Sets.add_eq (h : s.Sets name target) (settings : Settings) :
    settings.add s = .ok (settings.setScalar name target) := by
  cases h with
  | row h =>
    rw [Settings.add, ScalarTarget.parse, ofTrimmed?_eq_some_iff.mpr h]
    rfl
  | entry hsides hname h =>
    rw [Settings.add, parseOverride_eq_ok_iff.mpr ⟨_, hsides, hname, h⟩]
    rfl

theorem Invalid.add_eq (h : s.Invalid error) (settings : Settings) : settings.add s = .error error := by
  cases h with
  | style h =>
    rw [Settings.add, EnumStyle.parse_of_not_mem h]
    rfl
  | row h =>
    rw [Settings.add, ScalarTarget.parse, ofTrimmed?_eq_none_iff.mpr h]
    rfl
  | noTarget h =>
    rw [Settings.add, parseOverride_of_not_mem h]
    rfl
  | emptyName hsides =>
    rw [Settings.add, hsides.parseOverride_eq, if_pos rfl]
    rfl
  | emptyTarget hsides hname h =>
    rw [Settings.add, hsides.parseOverride_eq, if_neg hname, ofTrimmed?_eq_none_iff.mpr h]
    rfl

/-- What one more setting does: it sets the style, or a scalar, or is refused. -/
theorem add_cases (s : Setting) (settings : Settings) :
    (∃ name style, s = .style name ∧ name ∈ EnumStyle.names style ∧
      settings.add s = .ok (settings.setEnumStyle style)) ∨
    (∃ name target, s.Sets name target ∧ settings.add s = .ok (settings.setScalar name target)) ∨
    ∃ error, s.Invalid error ∧ settings.add s = .error error := by
  rcases valid_or_invalid s with ⟨name, style, rfl, h⟩ | ⟨name, target, h⟩ | ⟨error, h⟩
  · exact Or.inl ⟨name, style, rfl, h, add_style h settings⟩
  · exact Or.inr (Or.inl ⟨name, target, h, h.add_eq settings⟩)
  · exact Or.inr (Or.inr ⟨error, h, h.add_eq settings⟩)

theorem Sets.valid (h : s.Sets name target) (error : SettingError) : ¬ s.Invalid error := by
  intro herror
  cases (h.add_eq {}).symm.trans (herror.add_eq {})

theorem Sets.unique {other : String} {target' : ScalarTarget} (h : s.Sets name target) (h' : s.Sets other target') :
    name = other ∧ target = target' := by
  have hsame := congrArg (·.scalars.rows) (Except.ok.inj ((h.add_eq {}).symm.trans (h'.add_eq {})))
  exact Prod.mk.inj (List.singleton_inj.mp hsame)

theorem Sets.get?_add (h : s.Sets name target) (hadd : settings.add s = .ok last) :
    last.scalars.get? name = some target := by
  cases (h.add_eq settings).symm.trans hadd
  exact (Registry.get?_put _ _ _ _).trans (if_pos rfl)

theorem get?_add_of_not_sets (h : ∀ target, ¬ s.Sets name target) (hadd : settings.add s = .ok last) :
    last.scalars.get? name = settings.scalars.get? name := by
  rcases add_cases s settings with ⟨_, style, rfl, -, hstyle⟩ | ⟨other, target, hsets, hscalar⟩ | ⟨error, -, herror⟩
  · cases hstyle.symm.trans hadd
    rfl
  · cases hscalar.symm.trans hadd
    refine (Registry.get?_put _ _ _ _).trans (if_neg ?_)
    rintro rfl
    exact h target hsets
  · cases herror.symm.trans hadd

theorem exists_add_eq (h : ∀ error, ¬ s.Invalid error) (settings : Settings) : ∃ next, settings.add s = .ok next := by
  rcases add_cases s settings with ⟨_, _, -, -, hok⟩ | ⟨_, _, -, hok⟩ | ⟨error, hinvalid, -⟩
  · exact ⟨_, hok⟩
  · exact ⟨_, hok⟩
  · exact absurd hinvalid (h error)

theorem enumStyle_add (h : ∀ name, s ≠ .style name) (hadd : settings.add s = .ok last) :
    last.enumStyle = settings.enumStyle := by
  rcases add_cases s settings with ⟨name, style, rfl, -, -⟩ | ⟨name, target, -, hscalar⟩ | ⟨error, -, herror⟩
  · exact absurd rfl (h name)
  · cases hscalar.symm.trans hadd
    rfl
  · cases herror.symm.trans hadd

/-! ## All settings in turn -/

theorem addAll_append (ss ts : List Setting) (settings : Settings) :
    settings.addAll (ss ++ ts) = settings.addAll ss >>= fun next => next.addAll ts :=
  List.foldlM_append

theorem addAll_cons (s : Setting) (ss : List Setting) (settings : Settings) :
    settings.addAll (s :: ss) = settings.add s >>= fun next => next.addAll ss :=
  List.foldlM_cons

theorem addAll_append_eq_ok_iff {ts : List Setting} :
    settings.addAll (ss ++ ts) = .ok last ↔ ∃ next, settings.addAll ss = .ok next ∧ next.addAll ts = .ok last := by
  rw [addAll_append, bind_eq_ok_iff]

theorem addAll_cons_eq_ok_iff :
    settings.addAll (s :: ss) = .ok last ↔ ∃ next, settings.add s = .ok next ∧ next.addAll ss = .ok last := by
  rw [addAll_cons, bind_eq_ok_iff]

/-- Whatever no setting changes stays. -/
theorem addAll_observe {α : Type} (observe : Settings → α)
    (hkeep : ∀ s ∈ ss, ∀ settings last, settings.add s = .ok last → observe last = observe settings)
    (h : settings.addAll ss = .ok last) : observe last = observe settings := by
  induction ss generalizing settings with
  | nil => cases h; rfl
  | cons s ss ih =>
    obtain ⟨next, hadd, h⟩ := addAll_cons_eq_ok_iff.mp h
    rw [ih (fun t ht => hkeep t (List.mem_cons_of_mem s ht)) h, hkeep s List.mem_cons_self _ _ hadd]

theorem get?_addAll_of_unset (hunset : Unset name ss) (h : settings.addAll ss = .ok last) :
    last.scalars.get? name = settings.scalars.get? name :=
  addAll_observe (·.scalars.get? name) (fun s hs _ _ => get?_add_of_not_sets (hunset s hs)) h

theorem enumStyle_addAll (hscalar : ∀ s ∈ ss, ∀ name, s ≠ .style name) (h : settings.addAll ss = .ok last) :
    last.enumStyle = settings.enumStyle :=
  addAll_observe (·.enumStyle) (fun s hs _ _ => enumStyle_add (hscalar s hs)) h

theorem LastSets.get?_addAll (hsets : LastSets name ss target) (h : settings.addAll ss = .ok last) :
    last.scalars.get? name = some target := by
  induction hsets generalizing settings with
  | here hsets hunset =>
    obtain ⟨next, hadd, h⟩ := addAll_cons_eq_ok_iff.mp h
    rw [get?_addAll_of_unset hunset h, hsets.get?_add hadd]
  | later _ ih =>
    obtain ⟨next, -, h⟩ := addAll_cons_eq_ok_iff.mp h
    exact ih h

theorem lastSets_or_unset (name : String) (ss : List Setting) :
    (∃ target, LastSets name ss target) ∨ Unset name ss := by
  induction ss with
  | nil => exact Or.inr (List.forall_mem_nil _)
  | cons s ss ih =>
    rcases ih with ⟨target, h⟩ | hunset
    · exact Or.inl ⟨target, .later h⟩
    · by_cases hs : ∃ target, s.Sets name target
      · obtain ⟨target, hs⟩ := hs
        exact Or.inl ⟨target, .here hs hunset⟩
      · exact Or.inr (List.forall_mem_cons.mpr ⟨not_exists.mp hs, hunset⟩)

theorem FirstInvalid.addAll_eq (h : FirstInvalid ss error) (settings : Settings) :
    settings.addAll ss = .error error := by
  induction h generalizing settings with
  | here h =>
    rw [addAll_cons, h.add_eq]
    rfl
  | later hvalid _ ih =>
    obtain ⟨next, hadd⟩ := exists_add_eq hvalid settings
    rw [addAll_cons, hadd]
    exact ih next

theorem exists_addAll_eq (h : ∀ s ∈ ss, ∀ error, ¬ s.Invalid error) (settings : Settings) :
    ∃ last, settings.addAll ss = .ok last := by
  induction ss generalizing settings with
  | nil => exact ⟨settings, rfl⟩
  | cons s ss ih =>
    rw [List.forall_mem_cons] at h
    obtain ⟨next, hadd⟩ := exists_add_eq h.1 settings
    obtain ⟨last, hlast⟩ := ih h.2 next
    exact ⟨last, addAll_cons_eq_ok_iff.mpr ⟨next, hadd, hlast⟩⟩

theorem foldlM_setScalar {α : Type} (f : α → Except SettingError (String × ScalarTarget)) (rows : List α)
    (settings : Settings) :
    rows.foldlM (fun settings row => (f row).map fun row => settings.setScalar row.1 row.2) settings =
      (rows.mapM f).map settings.setScalars := by
  induction rows generalizing settings with
  | nil => rfl
  | cons row rows ih =>
    rw [List.foldlM_cons, List.mapM_cons]
    cases f row with
    | error error => rfl
    | ok first =>
      refine (ih (settings.setScalar first.1 first.2)).trans ?_
      cases rows.mapM f <;> rfl

theorem unset_style (name : String) (style? : Option String) : Unset name (style?.toList.map .style) := by
  intro s hs target hsets
  obtain ⟨_, -, rfl⟩ := List.mem_map.mp hs
  cases hsets

theorem mem_names_of_addAll (h : settings.addAll [.style name] = .ok last) : name ∈ last.enumStyle.names := by
  obtain ⟨next, hadd, h⟩ := addAll_cons_eq_ok_iff.mp h
  cases h
  rcases add_cases (.style name) settings with ⟨_, style, ⟨⟩, hstyle, hok⟩ | ⟨_, _, hsets, -⟩ | ⟨_, -, herror⟩
  · cases hok.symm.trans hadd
    exact hstyle
  · cases hsets
  · cases herror.symm.trans hadd

theorem addAll_style (style? : Option String) (settings : Settings) :
    settings.addAll (style?.toList.map .style) =
      match style? with
      | none => .ok settings
      | some name => (EnumStyle.parse name).map settings.setEnumStyle := by
  cases style? with
  | none => rfl
  | some name =>
    show (EnumStyle.parse name).map settings.setEnumStyle >>= pure = _
    rw [bind_pure]

end Setting

end SchemaModels
