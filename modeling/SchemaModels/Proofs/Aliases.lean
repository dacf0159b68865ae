import Mathlib.Data.List.Forall2
import SchemaModels.Proofs.BaseClasses
import SchemaModels.Proofs.Header

/-! Attributes and the names of fields. A line of a model class can be read back: its attribute stands before
the colon, and behind the type hint may stand an alias, which is then the name of the field. No attribute has a
reserved name. Fields of different names have different attributes, unless one has the name that another one
gets in place of a reserved one. -/

namespace SchemaModels
set_option autoImplicit false

/-! ## Lines read back -/

namespace Attribute

/-- The attribute on a line: what stands between the indentation and the colon. -/
def nameOn (line : String) : String :=
  String.ofList ((line.toList.drop indent.toList.length).takeWhile (· ≠ ':'))

def aliasOpening : String := " = Field(None, alias='"

/-- The alias on a line, in quotes behind the type hint. -/
def aliasOn? (hint line : String) : Option String :=
  let behind := line.toList.drop (indent ++ nameOn line ++ ": " ++ hint).toList.length
  if aliasOpening.toList.isPrefixOf behind then
    some (String.ofList ((behind.drop aliasOpening.toList.length).takeWhile (· ≠ '\x27')))
  else none

/-- The name under which the value of an attribute travels. -/
def wireName (hint line : String) : String :=
  (aliasOn? hint line).getD (nameOn line)

/-- The attribute of a field. -/
def nameFor (name : String) : String :=
  if isReserved name then aliasedName name else name

/-- What stands behind the type hint of a field. -/
def endFor (name : String) : String :=
  if isReserved name then aliasOpening ++ name ++ "')" else ""

theorem lineFor_eq (name hint : String) : lineFor name hint = indent ++ nameFor name ++ ": " ++ hint ++ endFor name := by
  unfold lineFor nameFor endFor
  split
  · simp only [String.append_assoc, aliasOpening]
  · rw [String.append_empty]

theorem colon_not_mem_nameFor {name : String} (h : ValidName name) : ':' ∉ (nameFor name).toList := by
  have hname : ':' ∉ name.toList := h.not_mem (by decide)
  unfold nameFor aliasedName
  split
  · simpa [String.toList_append] using hname
  · exact hname

theorem takeWhile_ne {c : Char} {front : List Char} (h : c ∉ front) (rest : List Char) :
    (front ++ c :: rest).takeWhile (· ≠ c) = front := by
  refine (span_append (fun x hx => ?_) ?_).1
  · exact decide_eq_true fun he => h (he ▸ hx)
  · simp

theorem nameOn_lineFor {name : String} (h : ValidName name) (hint : String) :
    nameOn (lineFor name hint) = nameFor name := by
  have hline : (lineFor name hint).toList =
      indent.toList ++ ((nameFor name).toList ++ ':' :: (" " ++ hint ++ endFor name).toList) := by
    simp [lineFor_eq, String.toList_append]
  rw [nameOn, hline, List.drop_left, takeWhile_ne (colon_not_mem_nameFor h), String.ofList_toList]

theorem aliasOn?_lineFor {name : String} (h : ValidName name) (hint : String) :
    aliasOn? hint (lineFor name hint) = if isReserved name then some name else none := by
  have hbehind : (lineFor name hint).toList.drop (indent ++ nameFor name ++ ": " ++ hint).toList.length =
      (endFor name).toList := by
    have hcut : (lineFor name hint).toList =
        (indent ++ nameFor name ++ ": " ++ hint).toList ++ (endFor name).toList := by
      rw [lineFor_eq, String.toList_append]
    rw [hcut, List.drop_left]
  rw [aliasOn?, nameOn_lineFor h, hbehind, endFor]
  split
  · have hend : (aliasOpening ++ name ++ "')").toList = aliasOpening.toList ++ (name.toList ++ '\x27' :: [')']) := by
      simp [String.toList_append]
    have hopening : aliasOpening.toList.isPrefixOf (aliasOpening.toList ++ (name.toList ++ '\x27' :: [')'])) = true :=
      List.isPrefixOf_iff_prefix.mpr (List.prefix_append _ _)
    rw [hend, if_pos hopening, List.drop_left, takeWhile_ne (h.not_mem (by decide)), String.ofList_toList]
  · rfl

theorem wireName_lineFor {name : String} (h : ValidName name) (hint : String) :
    wireName hint (lineFor name hint) = name := by
  rw [wireName, aliasOn?_lineFor h, nameOn_lineFor h, nameFor]
  split <;> rfl

/-! ## Attributes of different fields -/

theorem isReserved_aliasedName (name : String) : isReserved (aliasedName name) = false := by
  -- no reserved name ends as aliases do
  have hends : ∀ reserved ∈ keywords ++ modelMembers, reserved.toList.getLast? ≠ some '_' := by decide
  rw [Bool.eq_false_iff]
  intro h
  have hmem : aliasedName name ∈ keywords ++ modelMembers := List.mem_append.mpr (by simpa [isReserved] using h)
  apply hends _ hmem
  simp [aliasedName]

theorem isReserved_nameFor (name : String) : isReserved (nameFor name) = false := by
  unfold nameFor
  split
  · exact isReserved_aliasedName name
  · next h => exact Bool.eq_false_iff.mpr h

theorem nameFor_aliasedName {name : String} (h : isReserved name = true) :
    nameFor (aliasedName name) = nameFor name := by
  rw [nameFor, isReserved_aliasedName, nameFor, h]
  rfl

theorem eq_or_aliased_of_nameFor_eq {a b : String} (h : nameFor a = nameFor b) :
    a = b ∨ (isReserved a = true ∧ aliasedName a = b) ∨ (isReserved b = true ∧ aliasedName b = a) := by
  unfold nameFor at h
  cases ha : isReserved a <;> cases hb : isReserved b <;> rw [ha, hb] at h
  · exact .inl h
  · exact .inr (.inr ⟨rfl, h.symm⟩)
  · exact .inr (.inl ⟨rfl, h⟩)
  · exact .inl ((String.append_left_inj _).mp h)

theorem nodup_map_nameFor {names : List String} (hnames : names.Nodup) :
    (names.map nameFor).Nodup ↔ ∀ name ∈ names, isReserved name = true → aliasedName name ∉ names := by
  constructor
  · intro hnodup name hname hreserved halias
    -- the name would be its own alias, reserved and not
    have hsame := List.inj_on_of_nodup_map hnodup halias hname (nameFor_aliasedName hreserved)
    have hplain := isReserved_aliasedName name
    rw [hsame, hreserved] at hplain
    cases hplain
  · intro hapart
    refine hnames.map_on fun a ha b hb heq => ?_
    rcases eq_or_aliased_of_nameFor_eq heq with hsame | ⟨hreserved, rfl⟩ | ⟨hreserved, rfl⟩
    · exact hsame
    · exact absurd hb (hapart a ha hreserved)
    · exact absurd ha (hapart b hb hreserved)

end Attribute

/-! ## Model classes -/

namespace Definition

/-- Whether a definition becomes a model class, with its fields for attributes. -/
def isModel : Definition → Bool
  | object _ => true
  | interface _ => true
  | input _ => true
  | _ => false

def fieldNames (d : Definition) : List String :=
  d.attributes.map Prod.fst

theorem lines_of_isModel {definition : Definition} (h : definition.isModel) (table : ScalarTable) :
    definition.lines table =
      definition.attributes.map fun field => Attribute.lineFor field.1 (TypeHint.ofType table field.2).text := by
  cases definition with
  | object o => simp [lines, attributes, Attribute.ofField]
  | interface o => simp [lines, attributes, Attribute.ofField]
  | input o => simp [lines, attributes, Attribute.ofField]
  | _ => cases h

theorem exists_classText {definition : Definition} (h : definition.isModel) (table : ScalarTable) (style : EnumStyle) :
    ∃ d, definition.declaration? table style = some d ∧ d.text =
      Declaration.classText d.identity (", ".intercalate (definition.bases table style)) (definition.lines table) := by
  have hunion : ¬∃ u, definition = .union u := by
    rintro ⟨u, rfl⟩
    cases h
  obtain ⟨d, hd⟩ : ∃ d, definition.declaration? table style = some d := by
    cases definition with
    | object o => exact ⟨_, rfl⟩
    | interface o => exact ⟨_, rfl⟩
    | input o => exact ⟨_, rfl⟩
    | _ => cases h
  exact ⟨d, hd, (Declaration.text_eq_classText hd).resolve_left hunion⟩

/-- The lines of a model class declare no reserved attribute, and the value of each travels under the name of its
field. Where fields have different names, so have their attributes, but for a field that has the name which
stands in for the reserved name of another. -/
theorem attributes_apart_iff {definition : Definition} (hmodel : definition.isModel)
    (hvalid : ∀ name ∈ definition.fieldNames, ValidName name) (hnames : definition.fieldNames.Nodup)
    (table : ScalarTable) (style : EnumStyle) :
    (∃ d, definition.declaration? table style = some d ∧ d.text =
      Declaration.classText d.identity (", ".intercalate (definition.bases table style)) (definition.lines table)) ∧
    List.Forall₂ (fun field line => Attribute.isReserved (Attribute.nameOn line) = false ∧
        Attribute.wireName (TypeHint.ofType table field.2).text line = field.1)
      definition.attributes (definition.lines table) ∧
    (((definition.lines table).map Attribute.nameOn).Nodup ↔ ∀ name ∈ definition.fieldNames,
      Attribute.isReserved name = true → Attribute.aliasedName name ∉ definition.fieldNames) := by
  have hfields : ∀ field ∈ definition.attributes, ValidName field.1 := List.forall_mem_map.mp hvalid
  have hread : (definition.lines table).map Attribute.nameOn = definition.fieldNames.map Attribute.nameFor := by
    rw [lines_of_isModel hmodel, fieldNames, List.map_map, List.map_map]
    exact List.map_congr_left fun field hfield => Attribute.nameOn_lineFor (hfields field hfield) _
  refine ⟨exists_classText hmodel table style, ?_, ?_⟩
  · rw [lines_of_isModel hmodel, List.forall₂_map_right_iff, List.forall₂_same]
    intro field hfield
    rw [Attribute.nameOn_lineFor (hfields field hfield)]
    exact ⟨Attribute.isReserved_nameFor _, Attribute.wireName_lineFor (hfields field hfield) _⟩
  · rw [hread, Attribute.nodup_map_nameFor hnames]

/-- A reserved name beside names that end like an alias. -/
theorem attributes_apart_iff_reserved :
    let fields : List InputValue := ["from", "copy_", "from__"].map fun name => { name, type := .named "Int" }
    let definition : Definition := .input { name := "A", fields }
    let lines := definition.lines (.ofDocument ⟨[definition]⟩ .empty)
    definition.fieldNames = ["from", "copy_", "from__"] ∧ (lines.map Attribute.nameOn).Nodup ∧
      lines = ["    from_: Optional[int] = Field(None, alias='from')", "    copy_: Optional[int]",
        "    from__: Optional[int]"] := by
  intro fields definition lines
  have hvalid : ∀ name ∈ definition.fieldNames, IsName name.toList := by decide
  have hapart := (attributes_apart_iff rfl hvalid (by decide) (.ofDocument ⟨[definition]⟩ .empty) .strEnum).2.2
  exact ⟨rfl, hapart.mpr (by decide), by decide⟩

end Definition

/-- Two fields of different names with the same attribute: one has the name that stands in for the other's. -/
theorem Document.attribute_taken_twice :
    let fields : List Field := ["from", "from_"].map fun name => { name, type := .named "Int" }
    let definition : Definition := .object { name := "A", fields }
    definition.fieldNames.Nodup ∧ (∀ name ∈ definition.fieldNames, ValidName name) ∧
      generate {} "type A { from : Int from_ : Int }" = .ok ("from typing import Optional\n" ++
        "from pydantic import BaseModel, Field\n\n\nclass A(BaseModel):\n" ++
        "    from_: Optional[int] = Field(None, alias='from')\n    from_: Optional[int]\n") ∧
      (definition.lines (.ofDocument ⟨[definition]⟩ .empty)).map Attribute.nameOn = ["from_", "from_"] := by
  intro fields definition
  have hvalid : ∀ name ∈ definition.fieldNames, IsName name.toList := by decide
  have hname : ∀ name ∈ ["A", "Int"], IsName name.toList := by decide
  have hfields : ∀ field ∈ fields, field.WellFormed maxNesting :=
    List.forall_mem_map.mpr fun name hmem => ⟨hvalid name hmem, List.forall_mem_nil _, .named (hname _ (by decide)),
      List.forall_mem_nil _⟩
  have hwell : (⟨[definition]⟩ : Document).WellFormed :=
    List.forall_mem_singleton.mpr ⟨hname _ (by decide), List.forall_mem_nil _, List.forall_mem_nil _, hfields⟩
  have htext : (⟨[definition]⟩ : Document).print = "type A { from : Int from_ : Int }" := by decide
  refine ⟨by decide, hvalid, ?_, by decide⟩
  rw [← htext, generate_eq (parse_print hwell)]
  decide +kernel

end SchemaModels
