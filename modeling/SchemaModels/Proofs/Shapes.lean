import SchemaModels.Proofs.BaseClasses
import SchemaModels.Proofs.Pieces

/-! The grammar of a module's declarations. A declaration is a class with bases and a body, or a union of
references; names follow the rule of the schema language, and type hints are references under lists and
options. Under the default settings every declaration of a module is of this grammar but those of unions
without members, which are not. -/

namespace SchemaModels
set_option autoImplicit false

/-! ## Grammar -/

/-- A name by itself or in quotes. -/
inductive Reference : String → Prop
  | bare {name : String} : ValidName name → Reference name
  | quoted {name : String} : ValidName name → Reference ("'" ++ name ++ "'")

inductive HintText : String → Prop
  | reference {text : String} : Reference text → HintText text
  | list {text : String} : HintText text → HintText ("List[" ++ text ++ "]")
  | optional {text : String} : HintText text → HintText ("Optional[" ++ text ++ "]")

/-- A line of a class body other than `pass`: a field, a field under another name, or a value of an enum. -/
inductive BodyLine : String → Prop
  | field {name hint : String} : ValidName name → Attribute.isReserved name = false → HintText hint →
    BodyLine ("    " ++ name ++ ": " ++ hint)
  | aliased {name hint : String} : ValidName name → Attribute.isReserved name = true → HintText hint →
    BodyLine ("    " ++ (name ++ "_") ++ ": " ++ hint ++ " = Field(None, alias='" ++ name ++ "')")
  | value {name : String} : ValidName name → BodyLine ("    " ++ name ++ " = '" ++ name ++ "'")

inductive ClassBody : List String → Prop
  | lines {lines : List String} : lines ≠ [] → (∀ line ∈ lines, BodyLine line) → ClassBody lines
  | pass : ClassBody ["    pass"]

/-- The text of a declaration under a name. -/
inductive DeclarationText (name : String) : String → Prop
  | classOf {bases lines : List String} : ValidName name → bases ≠ [] → (∀ base ∈ bases, ValidName base) →
    ClassBody lines →
      DeclarationText name ("class " ++ name ++ "(" ++ ", ".intercalate bases ++ "):\n" ++ "\n".intercalate lines)
  | unionOf {members : List String} : ValidName name → members ≠ [] → (∀ member ∈ members, Reference member) →
    DeclarationText name (name ++ " = Union[" ++ ", ".intercalate members ++ "]")

/-! ## Unions without members -/

theorem ValidName.append_blank {a b : String} (ha : ValidName a) (hb : ValidName b) {x y : List Char}
    (h : a.toList ++ ' ' :: x = b.toList ++ ' ' :: y) : a = b ∧ x = y := by
  have hname : ∀ {name : String}, ValidName name → ∀ c ∈ name.toList, (c != ' ') = true := by
    intro name hvalid c hc
    rw [bne_iff_ne]
    rintro rfl
    exact hvalid.not_mem (by decide) hc
  have hblank : ∀ rest c, (' ' :: rest).head? = some c → (c != ' ') = false := by simp
  obtain ⟨htake, hdrop⟩ := span_append (hname ha) (hblank x)
  obtain ⟨htake', hdrop'⟩ := span_append (hname hb) (hblank y)
  rw [h] at htake hdrop
  exact ⟨String.toList_inj.mp (htake.symm.trans htake'), (List.cons.inj (hdrop.symm.trans hdrop')).2⟩

theorem Reference.ne_empty {text : String} (h : Reference text) : text ≠ "" := by
  cases h with
  | bare hname =>
    obtain ⟨c, rest, hcons, -⟩ := hname
    rintro rfl
    cases hcons
  | quoted hname => simp

theorem intercalate_ne_empty {texts : List String} (hne : texts ≠ []) (h : ∀ text ∈ texts, text ≠ "") (sep : String) :
    sep.intercalate texts ≠ "" := by
  cases texts with
  | nil => exact absurd rfl hne
  | cons text texts =>
    have htext := h text List.mem_cons_self
    cases texts with
    | nil => rwa [String.intercalate_singleton]
    | cons next texts => simp [htext]

/-- No declaration has the text of a union without members. -/
theorem not_declarationText {union : String} (hunion : ValidName union) (name : String) :
    ¬DeclarationText name (union ++ " = Union[]") := by
  intro h
  generalize htext : union ++ " = Union[]" = text at h
  have hchars : union.toList ++ ' ' :: '=' :: " Union[]".toList = text.toList := by
    rw [← htext, String.toList_append]
    rfl
  cases h with
  | @classOf bases lines hname hbases hvalid hbody =>
    -- The union would be called `class`, and a name would begin with the sign behind it.
    have hclass : ValidName "class" := (by decide : IsName "class".toList)
    obtain ⟨c, rest, hcons, hstart, -⟩ := hname
    have hfront : ("class " ++ name ++ "(" ++ ", ".intercalate bases ++ "):\n" ++ "\n".intercalate lines).toList =
        "class".toList ++ ' ' :: c :: (rest ++
          ("(" ++ ", ".intercalate bases ++ "):\n" ++ "\n".intercalate lines).toList) := by
      simp [hcons]
    obtain ⟨-, hrest⟩ := hunion.append_blank hclass (hchars.trans hfront)
    rw [← (List.cons.inj hrest).1] at hstart
    exact absurd hstart (by decide)
  | @unionOf members hname hmembers hreferences =>
    have hfront : (name ++ " = Union[" ++ ", ".intercalate members ++ "]").toList =
        name.toList ++ ' ' :: '=' :: (" Union[".toList ++ (", ".intercalate members ++ "]").toList) := by
      simp
    obtain ⟨-, hrest⟩ := hunion.append_blank hname (hchars.trans hfront)
    have hempty : ", ".intercalate members = "" := String.toList_eq_nil_iff.mp (by simpa using hrest)
    exact intercalate_ne_empty hmembers (fun m hm => (hreferences m hm).ne_empty) _ hempty

/-! ## Type hints -/

namespace TypeHint

theorem stripOptional_of_not_mem {text : String} (h : '[' ∉ text.toList) : stripOptional text = text := by
  have hopening : optionalOpening.isPrefixOf text.toList = false := by
    rw [Bool.eq_false_iff, ne_eq, List.isPrefixOf_iff_prefix]
    exact fun hfront => h (hfront.subset (by decide))
  simp [stripOptional, insideOptional?, hopening]

theorem stripOptional_list (text : String) : stripOptional ("List[" ++ text ++ "]") = "List[" ++ text ++ "]" := by
  have hopening : optionalOpening.isPrefixOf ("List[" ++ text ++ "]").toList = false := by
    rw [String.toList_append, String.toList_append]
    rfl
  simp only [stripOptional, insideOptional?, hopening, Bool.false_eq_true, if_false]

theorem text_list (item : TypeHint) : item.list.text = "Optional[" ++ ("List[" ++ item.text ++ "]") ++ "]" := by
  rw [list, show ("Optional[List[" : String) = "Optional[" ++ "List[" from rfl,
    show ("]]" : String) = "]" ++ "]" from rfl]
  simp only [String.append_assoc]

end TypeHint

theorem Reference.stripOptional {text : String} (h : Reference text) : TypeHint.stripOptional text = text := by
  refine TypeHint.stripOptional_of_not_mem ?_
  cases h with
  | bare hname => exact hname.not_mem (by decide)
  | quoted hname =>
    have hbracket := hname.not_mem (c := '[') (by decide)
    simp [String.toList_append, hbracket]

theorem Reference.unquote {text : String} (h : Reference text) : ValidName (TypeHint.unquote text) := by
  cases h with
  | bare hname => rwa [TypeHint.unquote_of_not_mem (hname.not_mem (by decide))]
  | quoted hname => rwa [TypeHint.unquote_quoted (hname.not_mem (by decide))]

theorem HintText.stripOptional {text : String} (h : HintText text) : HintText (TypeHint.stripOptional text) := by
  cases h with
  | reference hreference =>
    rw [hreference.stripOptional]
    exact .reference hreference
  | list hitem =>
    rw [TypeHint.stripOptional_list]
    exact .list hitem
  | optional hinner => rwa [TypeHint.stripOptional_wrapped]

/-- The targets of a table are names. -/
def ScalarTable.NamedTargets (table : ScalarTable) : Prop :=
  ∀ name target, table.get? name = some target → ValidName target.identity

theorem ScalarTable.namedTargets_default (doc : Document) : (ofDocument doc .empty).NamedTargets := by
  have hbuiltin : ∀ target ∈ builtin.values, IsName target.identity.toList := by decide
  intro name target hget
  rcases target_ofDocument hget with hmem | rfl | hmem
  · cases hmem
  · exact (by decide : IsName "Any".toList)
  · exact hbuiltin target hmem

section Texts

variable {table : ScalarTable} (ht : table.NamedTargets)
include ht

theorem TypeHint.named_cases {name : String} (hname : ValidName name) :
    ∃ text, Reference text ∧
      ((named table name).text = text ∨ (named table name).text = "Optional[" ++ text ++ "]") := by
  unfold named
  split
  -- `Any` is written as it is, all other references as optional.
  · next hget => exact ⟨_, .bare (ht name _ hget), Or.inl rfl⟩
  · next text hget => exact ⟨text, .bare (ht name _ hget), Or.inr rfl⟩
  · refine ⟨_, .quoted hname, Or.inr ?_⟩
    simp only [String.append_assoc]
    rfl

theorem TypeHint.reference_named {name : String} (hname : ValidName name) :
    Reference (stripOptional (named table name).text) := by
  obtain ⟨text, hreference, htext | htext⟩ := named_cases ht hname
  · rwa [htext, hreference.stripOptional]
  · rwa [htext, stripOptional_wrapped]

theorem TypeHint.hintText_ofType {room : Nat} {type : TypeExpr} (h : type.WellFormed room) :
    HintText (ofType table type).text := by
  induction h with
  | named hname =>
    obtain ⟨text, hreference, htext | htext⟩ := named_cases ht hname
    · exact htext ▸ .reference hreference
    · exact htext ▸ .optional (.reference hreference)
  | @list room item _ ih =>
    exact (text_list (ofType table item)) ▸ .optional (.list ih)
  | nonNull _ _ ih => exact ih.stripOptional

theorem Declaration.validName_baseName {interface : String} (h : ValidName interface) :
    ValidName (baseName table interface) :=
  (TypeHint.reference_named ht h).unquote

/-! ## Classes -/

theorem Attribute.bodyLine_ofField {name : String} (hname : ValidName name) {room : Nat} {type : TypeExpr}
    (htype : type.WellFormed room) : BodyLine (ofField table name type).line := by
  have hhint := TypeHint.hintText_ofType ht htype
  unfold ofField lineFor
  dsimp only
  split
  · next hreserved => exact .aliased hname hreserved hhint
  · next hplain => exact .field hname (Bool.eq_false_iff.mpr hplain) hhint

theorem Definition.bodyLine_lines {room : Nat} {definition : Definition} (hwell : definition.WellFormed room) :
    ∀ line ∈ definition.lines table, BodyLine line := by
  cases definition with
  | object o =>
    simp only [lines, List.map_map, List.forall_mem_map]
    exact fun f hf => Attribute.bodyLine_ofField ht (hwell.fields f hf).name (hwell.fields f hf).type
  | interface o =>
    simp only [lines, List.map_map, List.forall_mem_map]
    exact fun f hf => Attribute.bodyLine_ofField ht (hwell.fields f hf).name (hwell.fields f hf).type
  | input o =>
    simp only [lines, List.map_map, List.forall_mem_map]
    exact fun f hf => Attribute.bodyLine_ofField ht (hwell.fields f hf).name (hwell.fields f hf).type
  | enum o =>
    simp only [lines, List.forall_mem_map]
    exact fun v hv => .value (hwell.values v hv).name
  | _ => exact List.forall_mem_nil _

theorem Definition.bases_valid {room : Nat} {definition : Definition} (hwell : definition.WellFormed room)
    (style : EnumStyle) : ∀ base ∈ definition.bases table style, ValidName base := by
  have hmodel : ValidName Declaration.baseModel := (by decide : IsName "BaseModel".toList)
  cases definition with
  | object o =>
    rw [bases]
    split
    · exact List.forall_mem_singleton.mpr hmodel
    · exact List.forall_mem_map.mpr fun i hi => Declaration.validName_baseName ht (hwell.interfaces i hi)
  | interface o => exact List.forall_mem_singleton.mpr hmodel
  | input o => exact List.forall_mem_singleton.mpr hmodel
  | enum o =>
    have hstyle : ∀ base ∈ style.baseList, IsName base.toList := by cases style <;> decide
    exact hstyle
  | _ => exact List.forall_mem_nil _

end Texts

theorem Definition.bases_ne_nil {table : ScalarTable} {style : EnumStyle} {definition : Definition} {d : Declaration}
    (h : definition.declaration? table style = some d) (hclass : ¬∃ u, definition = .union u) :
    definition.bases table style ≠ [] := by
  cases definition with
  | object o =>
    rw [bases]
    split
    · exact List.cons_ne_nil _ _
    · next hsome => simpa using hsome
  | interface o => exact List.cons_ne_nil _ _
  | input o => exact List.cons_ne_nil _ _
  | enum o => cases style <;> exact List.cons_ne_nil _ _
  | union u => exact absurd ⟨u, rfl⟩ hclass
  | _ => cases h

namespace Declaration

theorem declarationText_classText {name : String} {bases lines : List String} (hname : ValidName name)
    (hne : bases ≠ []) (hbases : ∀ base ∈ bases, ValidName base) (hlines : ∀ line ∈ lines, BodyLine line) :
    DeclarationText name (classText name (", ".intercalate bases) lines) := by
  unfold classText
  split
  · have hpass : indent ++ "pass" = "\n".intercalate ["    pass"] := rfl
    rw [hpass]
    exact .classOf hname hne hbases .pass
  · next hsome => exact .classOf hname hne hbases (.lines (by simpa using hsome) hlines)

/-! ## Declarations -/

theorem ofUnion_fields (table : ScalarTable) (u : UnionType) :
    (ofUnion table u).1.identity = u.name ∧
      (ofUnion table u).1.text = u.name ++ " = Union[" ++
        ", ".intercalate (u.members.map fun m => TypeHint.stripOptional (TypeHint.named table m).text) ++ "]" := by
  unfold ofUnion
  dsimp only
  rw [(make_fields _ _ _ _).1, (make_fields _ _ _ _).2.1, List.map_map]
  exact ⟨rfl, rfl⟩

theorem declarationText_ofUnion {table : ScalarTable} (ht : table.NamedTargets) {room : Nat} {u : UnionType}
    (hwell : u.WellFormed room) :
    DeclarationText (ofUnion table u).1.identity (ofUnion table u).1.text ↔ u.members ≠ [] := by
  obtain ⟨hidentity, htext⟩ := ofUnion_fields table u
  rw [hidentity, htext]
  constructor
  · intro hshape hempty
    rw [hempty, List.map_nil, String.intercalate_nil, String.append_empty, String.append_assoc] at hshape
    exact not_declarationText hwell.name _ hshape
  · intro hmembers
    refine .unionOf hwell.name (by simpa using hmembers) (List.forall_mem_map.mpr fun m hm => ?_)
    exact TypeHint.reference_named ht (hwell.members m hm)

end Declaration

theorem Definition.WellFormed.declaredName {room : Nat} {definition : Definition} (hwell : definition.WellFormed room)
    {name : String} (h : definition.declaredName? = some name) : ValidName name := by
  cases definition <;> cases h <;> exact hwell.name

/-- A declaration is of the grammar unless it is that of a union without members. -/
theorem Definition.declarationText_iff {table : ScalarTable} (ht : table.NamedTargets) {style : EnumStyle} {room : Nat}
    {definition : Definition} (hwell : definition.WellFormed room) {d : Declaration}
    (h : definition.declaration? table style = some d) :
    DeclarationText d.identity d.text ↔ ∀ u, definition = .union u → u.members ≠ [] := by
  by_cases hunion : ∃ u, definition = .union u
  · obtain ⟨u, rfl⟩ := hunion
    cases h
    rw [Declaration.declarationText_ofUnion ht hwell]
    exact ⟨fun hmembers v hv => by cases hv; exact hmembers, fun hmembers => hmembers u rfl⟩
  · rw [(Declaration.text_eq_classText h).resolve_left hunion]
    refine iff_of_true ?_ fun u hu => absurd ⟨u, hu⟩ hunion
    exact Declaration.declarationText_classText (hwell.declaredName (declaration?_fields h).1)
      (bases_ne_nil h hunion) (bases_valid ht hwell style) (bodyLine_lines ht hwell)

namespace Document

/-- Under the default settings the declarations of a module are of the grammar, but for those of unions without
members. -/
theorem shape_of_module {text : String} {doc : Document} (hparse : Document.parse text = .ok doc) :
    let ds := (doc.merge.outline {}).ordered
    generate {} text = .ok (doc.merge.header {} ++ Outline.separator ++
        Outline.separator.intercalate (ds.map (·.text)) ++ "\n") ∧
      ∀ d ∈ ds, ∃ definition ∈ doc.merge.definitions,
        definition.declaration? (doc.merge.scalarTable {}) .strEnum = some d ∧
        (DeclarationText d.identity d.text ↔ ∀ u, definition = .union u → u.members ≠ []) := by
  refine ⟨generate_eq hparse, fun d hd => ?_⟩
  obtain ⟨definition, hmem, hdefinition⟩ := List.mem_filterMap.mp (Outline.mem_of_mem_ordered hd)
  have hwell := merge_wellFormed (wellFormed_of_parse hparse) definition hmem
  exact ⟨definition, hmem, hdefinition,
    Definition.declarationText_iff (ScalarTable.namedTargets_default doc.merge) hwell hdefinition⟩

/-- A union that has its members from an extension, and a class without lines. -/
theorem shape_of_module_extended :
    let union : UnionType := { name := "U", members := ["A", "Int"] }
    let object : FieldsType := { name := "A" }
    let doc : Document := ⟨[.union { name := "U" }, .object object, .extension (.union union)]⟩
    Document.parse doc.print = .ok doc ∧ doc.merge.definitions = [.union union, .object object] ∧
      DeclarationText "U" "U = Union['A', int]" ∧ DeclarationText "A" "class A(BaseModel):\n    pass" := by
  intro union object doc
  have hname : ∀ name ∈ ["U", "A"], IsName name.toList := by decide
  have hmembers : ∀ member ∈ union.members, IsName member.toList := by decide
  have hwell : doc.WellFormed := by
    refine List.forall_mem_cons.mpr ⟨?_, List.forall_mem_cons.mpr ⟨?_, List.forall_mem_singleton.mpr ⟨?_, rfl, rfl⟩⟩⟩
    · exact ⟨hname _ (by decide), List.forall_mem_nil _, List.forall_mem_nil _⟩
    · exact ⟨hname _ (by decide), List.forall_mem_nil _, List.forall_mem_nil _, List.forall_mem_nil _⟩
    · exact ⟨hname _ (by decide), List.forall_mem_nil _, hmembers⟩
  have hparse := parse_print hwell
  have hmerged : doc.merge = ⟨[.union union, .object object]⟩ := by rw [merge_eq]; rfl
  have hmerge : doc.merge.definitions = [.union union, .object object] := congrArg definitions hmerged
  have hdistinct : doc.merge.declaredNames.Nodup := by rw [hmerged]; decide
  have hshape : ∀ definition ∈ doc.merge.definitions, ∀ d,
      definition.declaration? (doc.merge.scalarTable {}) .strEnum = some d → DeclarationText d.identity d.text := by
    intro definition hmem d hd
    have hemitted : d ∈ (doc.merge.outline {}).ordered := (mem_ordered_outline hdistinct).mpr ⟨definition, hmem, hd⟩
    obtain ⟨source, hsource, -, hiff⟩ := (shape_of_module hparse).2 d hemitted
    refine hiff.mpr fun u hu => ?_
    rw [hu, hmerge, List.mem_cons, List.mem_singleton] at hsource
    rcases hsource with hsame | hother
    · cases hsame
      exact List.cons_ne_nil _ _
    · cases hother
  rw [hmerged] at hshape
  let table := Document.scalarTable ⟨[.union union, .object object]⟩ {}
  have hunion := hshape (.union union) (by simp) (Declaration.ofUnion table union).1 rfl
  have hobject := hshape (.object object) (by simp) (Declaration.ofObject table object).1 rfl
  have hunionText : (Declaration.ofUnion table union).1.text = "U = Union['A', int]" := by decide
  have hobjectText : (Declaration.ofObject table object).1.text = "class A(BaseModel):\n    pass" := by decide
  rw [hunionText] at hunion
  rw [hobjectText] at hobject
  exact ⟨hparse, hmerge, hunion, hobject⟩

/-- A union without members is written as such, and that is the text of no declaration. -/
theorem union_without_members :
    generate {} "union U" = .ok "from typing import Union\nfrom pydantic import BaseModel\n\n\nU = Union[]\n" ∧
      ∀ name, ¬DeclarationText name "U = Union[]" := by
  have hname : ValidName "U" := (by decide : IsName "U".toList)
  have hwell : (⟨[.union { name := "U" }]⟩ : Document).WellFormed :=
    List.forall_mem_singleton.mpr ⟨hname, List.forall_mem_nil _, List.forall_mem_nil _⟩
  refine ⟨?_, not_declarationText hname⟩
  have htext : (⟨[.union { name := "U" }]⟩ : Document).print = "union U" := by decide
  rw [← htext, generate_eq (parse_print hwell)]
  decide +kernel

end Document

end SchemaModels
