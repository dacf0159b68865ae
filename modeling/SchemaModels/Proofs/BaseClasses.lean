import SchemaModels.Proofs.Merge
import SchemaModels.Proofs.Outline
import SchemaModels.Proofs.RoundTrip

/-! Base classes before their subclasses. The bases of an object's class are written for the
interfaces that the object implements. One that is the target of no scalar is recorded, and then its
declaration comes first, whatever references run in circles; one that has a scalar's target for its
name is not, and may come too late. -/

namespace SchemaModels
set_option autoImplicit false

/-! ## Names of bases -/

namespace TypeHint

theorem insideOptional?_wrapped (inner : List Char) :
    insideOptional? (optionalOpening ++ inner ++ [']']) = some inner := by
  have hprefix : optionalOpening.isPrefixOf (optionalOpening ++ inner ++ [']']) = true := by
    rw [List.isPrefixOf_iff_prefix, List.append_assoc]
    exact List.prefix_append _ _
  have hdrop : (optionalOpening ++ inner ++ [']']).drop optionalOpening.length = inner ++ [']'] := by
    rw [List.append_assoc, List.drop_left]
  rw [insideOptional?, if_pos hprefix]
  dsimp only
  rw [hdrop, List.getLast?_concat, if_pos rfl, List.dropLast_concat]

/-- Wrapping a text and stripping it again gives the text. -/
theorem stripOptional_wrapped (text : String) : stripOptional ("Optional[" ++ text ++ "]") = text := by
  have hlist : ("Optional[" ++ text ++ "]").toList = optionalOpening ++ text.toList ++ [']'] := by
    rw [String.toList_append, String.toList_append]
    rfl
  rw [stripOptional, hlist, insideOptional?_wrapped]
  exact String.ofList_toList

theorem text_named_of_none {table : ScalarTable} {name : String} (h : table.get? name = none) :
    (named table name).text = "Optional[" ++ ("'" ++ name ++ "'") ++ "]" := by
  rw [named, h]
  simp only [String.append_assoc]
  rfl

theorem unquote_append (a b : String) : unquote (a ++ b) = unquote a ++ unquote b := by
  simp [unquote]

theorem unquote_of_not_mem {text : String} (h : '\x27' ∉ text.toList) : unquote text = text := by
  have hkeep : text.toList.filter (· ≠ '\x27') = text.toList := by
    refine List.filter_eq_self.mpr fun c hc => ?_
    exact decide_eq_true fun he => h (he ▸ hc)
  rw [unquote, hkeep, String.ofList_toList]

/-- Quotes around a text without quotes are all that is dropped. -/
theorem unquote_quoted {text : String} (h : '\x27' ∉ text.toList) : unquote ("'" ++ text ++ "'") = text := by
  have hquote : unquote "'" = "" := by decide
  rw [unquote_append, unquote_append, unquote_of_not_mem h, hquote, String.empty_append, String.append_empty]

end TypeHint

namespace Declaration

/-- An interface that is no scalar is a base under its own name. -/
theorem baseName_eq {table : ScalarTable} {interface : String} (h : table.get? interface = none)
    (hname : ValidName interface) : baseName table interface = interface := by
  rw [baseName, TypeHint.text_named_of_none h, TypeHint.stripOptional_wrapped,
    TypeHint.unquote_quoted (hname.not_mem (by decide))]

/-- The recorded base classes of an object are its bases that are no scalar's target. -/
theorem mem_supertypes_ofObject {table : ScalarTable} {o : FieldsType} {x : String} :
    x ∈ (ofObject table o).1.supertypes ↔
      x ∈ o.interfaces.map (baseName table) ∧ table.isPrimitive x = false := by
  unfold ofObject
  dsimp only
  rw [(make_fields _ _ _ _).2.2.1, List.mem_filter, Bool.not_eq_true']

theorem supertypes_ofInterface (table : ScalarTable) (d : FieldsType) (x : String) :
    x ∉ (ofInterface table d).1.supertypes := by
  unfold ofInterface
  dsimp only
  rw [(make_fields _ _ _ _).2.2.1]
  exact List.not_mem_nil

end Declaration

/-! ## The base list of a class -/

/-- The base classes of an enum class one by one. -/
def EnumStyle.baseList : EnumStyle → List String
  | strEnum => ["StrEnum"]
  | strMixin => ["str", "Enum"]

/-- The bases that a module takes from libraries. -/
def EnumStyle.libraryBases (style : EnumStyle) : List String :=
  Declaration.baseModel :: style.baseList

/-- The names in the base list of the class that a definition becomes; a union becomes no class. -/
def Definition.bases (table : ScalarTable) (style : EnumStyle) : Definition → List String
  | object o => if o.interfaces.isEmpty then [Declaration.baseModel] else o.interfaces.map (Declaration.baseName table)
  | interface _ => [Declaration.baseModel]
  | input _ => [Declaration.baseModel]
  | enum _ => style.baseList
  | _ => []

/-- The lines in the body of the class that a definition becomes. -/
def Definition.lines (table : ScalarTable) : Definition → List String
  | object o => (o.fields.map fun f => Attribute.ofField table f.name f.type).map (·.line)
  | interface o => (o.fields.map fun f => Attribute.ofField table f.name f.type).map (·.line)
  | input o => (o.fields.map fun f => Attribute.ofField table f.name f.type).map (·.line)
  | enum o => o.values.map fun v => Declaration.enumLine v.name
  | _ => []

namespace Declaration

theorem text_make {name bases list : String} (h : bases = list) (lines dependencies supertypes : List String) :
    (make name (classText name bases lines) dependencies supertypes).text =
      classText (make name (classText name bases lines) dependencies supertypes).identity list lines := by
  obtain ⟨hidentity, htext, -⟩ := make_fields name (classText name bases lines) dependencies supertypes
  rw [htext, hidentity, h]

/-- A definition other than a union becomes a class of its bases and its lines. -/
theorem text_eq_classText {table : ScalarTable} {style : EnumStyle} {definition : Definition} {d : Declaration}
    (h : definition.declaration? table style = some d) :
    (∃ u, definition = .union u) ∨
      d.text = classText d.identity (", ".intercalate (definition.bases table style)) (definition.lines table) := by
  cases definition with
  | object o =>
    cases h
    have hbases : (if (o.interfaces.map (baseName table)).isEmpty then baseModel
        else ", ".intercalate (o.interfaces.map (baseName table))) =
          ", ".intercalate ((Definition.object o).bases table style) := by
      rw [Definition.bases]
      cases o.interfaces <;> rfl
    exact Or.inr (text_make hbases _ _ _)
  | interface o =>
    cases h
    exact Or.inr (text_make rfl _ _ _)
  | input o =>
    cases h
    exact Or.inr (text_make rfl _ _ _)
  | enum o =>
    cases h
    have hbases : style.bases = ", ".intercalate style.baseList := by cases style <;> rfl
    exact Or.inr (text_make hbases _ _ _)
  | union u => exact Or.inl ⟨u, rfl⟩
  | _ => cases h

/-- The bases of a definition stand in the header of its class; only a union has none. -/
theorem text_declaration? {table : ScalarTable} {style : EnumStyle} {definition : Definition} {d : Declaration}
    (h : definition.declaration? table style = some d) :
    (∃ u, definition = .union u) ∨
      ∃ lines, d.text = classText d.identity (", ".intercalate (definition.bases table style)) lines :=
  (text_eq_classText h).imp_right fun htext => ⟨_, htext⟩

/-- A base that is written for an interface of an object, and not because there is none, is recorded unless it
is a scalar's target. -/
theorem mem_supertypes_of_bases {table : ScalarTable} {style : EnumStyle} {definition : Definition}
    {d : Declaration} (h : definition.declaration? table style = some d) {base : String}
    (hbase : base ∈ definition.bases table style)
    (hlibrary : base ∈ style.libraryBases → ∃ o, definition = .object o ∧ o.interfaces ≠ [])
    (hplain : table.isPrimitive base = false) : base ∈ d.supertypes := by
  by_cases hobject : ∃ o, definition = .object o ∧ o.interfaces ≠ []
  · obtain ⟨o, rfl, hinterfaces⟩ := hobject
    cases h
    rw [Definition.bases, if_neg (by simpa using hinterfaces)] at hbase
    exact mem_supertypes_ofObject.mpr ⟨hbase, hplain⟩
  · refine absurd (hlibrary ?_) hobject
    rw [EnumStyle.libraryBases, List.mem_cons]
    cases definition with
    | object o =>
      rw [Definition.bases] at hbase
      split at hbase
      · exact .inl (List.mem_singleton.mp hbase)
      · next hempty => exact absurd ⟨o, rfl, by simpa using hempty⟩ hobject
    | interface o => exact .inl (List.mem_singleton.mp hbase)
    | input o => exact .inl (List.mem_singleton.mp hbase)
    | enum o => exact .inr hbase
    | _ => cases hbase

end Declaration

/-! ## The declarations of a valid schema -/

namespace Document

variable {doc : Document} {settings : Settings}

/-- Where declared names are distinct, the declarations of all definitions are emitted. -/
theorem mem_ordered_outline (hdistinct : doc.declaredNames.Nodup) {d : Declaration} :
    d ∈ (doc.outline settings).ordered ↔ ∃ definition ∈ doc.definitions,
      definition.declaration? (doc.scalarTable settings) settings.enumStyle = some d := by
  rw [← List.mem_filterMap]
  refine ⟨Outline.mem_of_mem_ordered, fun hd => ?_⟩
  have hnodup := doc.identities_eq settings ▸ hdistinct
  rw [outline, Outline.mem_ordered_iff, Outline.get?_ofList]
  cases hfind : List.find? (fun e => e.identity == d.identity) (doc.definitions.filterMap
      (Definition.declaration? (doc.scalarTable settings) settings.enumStyle)) with
  | none => exact absurd (beq_self_eq_true d.identity) (List.find?_eq_none.mp hfind d hd)
  | some e =>
    have hidentity : e.identity = d.identity := by simpa using List.find?_some hfind
    rw [List.inj_on_of_nodup_map hnodup (List.mem_of_find?_eq_some hfind) hd hidentity]

theorem eq_of_identity_eq {d e : Declaration} (hd : d ∈ (doc.outline settings).ordered)
    (he : e ∈ (doc.outline settings).ordered) (h : d.identity = e.identity) : d = e := by
  rw [outline, Outline.mem_ordered_iff] at hd he
  rw [h] at hd
  exact Option.some.inj (hd.symm.trans he)

/-- The class of an interface has no recorded base classes. -/
theorem acc_interface (hdistinct : doc.declaredNames.Nodup) {d : FieldsType}
    (hmem : .interface d ∈ doc.definitions) :
    Acc (Outline.BaseOf (doc.outline settings).ordered) d.name := by
  have hd : (Declaration.ofInterface (doc.scalarTable settings) d).1 ∈ (doc.outline settings).ordered :=
    (mem_ordered_outline hdistinct).mpr ⟨.interface d, hmem, rfl⟩
  have hname : (Declaration.ofInterface (doc.scalarTable settings) d).1.identity = d.name :=
    (Declaration.make_fields _ _ _ _).1
  refine Acc.intro _ fun x hx => ?_
  obtain ⟨-, e, he, hidentity, hsuper⟩ := hx
  have hsame := eq_of_identity_eq he hd (hidentity.trans hname.symm)
  exact absurd (hsame ▸ hsuper) (Declaration.supertypes_ofInterface _ d x)

/-- In the module of a valid schema, a declared base in the header of a class comes before the class. This
leaves out a base with the name of a scalar's target; one with the name of a library's base that stands in a
header without interfaces, as where a type is named `BaseModel` or `StrEnum`; base classes that run in a circle,
as they can where interfaces have the quoted names of classes for targets; and a target such as `B, C`, which
names several classes but counts as one base. An interface that is no scalar is its own base, is declared, and
has no base classes. -/
theorem base_class_first {settings : Settings} {text : String} {doc : Document}
    (hparse : Document.parse text = .ok doc) (hdistinct : doc.merge.declaredNames.Nodup)
    (himplemented : ∀ o, .object o ∈ doc.merge.definitions → ∀ i ∈ o.interfaces,
      ∃ d, .interface d ∈ doc.merge.definitions ∧ d.name = i) :
    let table := doc.merge.scalarTable settings
    let style := settings.enumStyle
    let ds := (doc.merge.outline settings).ordered
    (∃ header, generate settings text =
        .ok (header ++ Outline.separator ++ Outline.separator.intercalate (ds.map (·.text)) ++ "\n")) ∧
      (∀ d, d ∈ ds ↔ ∃ definition ∈ doc.merge.definitions, definition.declaration? table style = some d) ∧
      (∀ definition ∈ doc.merge.definitions, ∀ d, definition.declaration? table style = some d →
        ((∃ u, definition = .union u) ∨ ∃ lines,
          d.text = Declaration.classText d.identity (", ".intercalate (definition.bases table style)) lines) ∧
        ∀ base ∈ ds, base.identity ∈ definition.bases table style → base ≠ d →
          (base.identity ∈ style.libraryBases → ∃ o, definition = .object o ∧ o.interfaces ≠ []) →
            table.isPrimitive base.identity = false → Acc (Outline.BaseOf ds) base.identity → [base, d].Sublist ds) ∧
      ∀ o, .object o ∈ doc.merge.definitions → ∀ i ∈ o.interfaces, table.get? i = none →
        i ∈ (Definition.object o).bases table style ∧ (∃ base ∈ ds, base.identity = i) ∧
          Acc (Outline.BaseOf ds) i := by
  intro table style ds
  refine ⟨⟨_, generate_eq hparse⟩, fun d => mem_ordered_outline hdistinct, fun definition hmem d hd => ?_,
    fun o ho i hi hscalar => ?_⟩
  · refine ⟨Declaration.text_declaration? hd, fun base hbase hlisted hne hlibrary hplain hacc => ?_⟩
    have hemitted : d ∈ ds := (mem_ordered_outline hdistinct).mpr ⟨definition, hmem, hd⟩
    have hsuper := Declaration.mem_supertypes_of_bases hd hlisted hlibrary hplain
    refine Outline.base_first (fun e he => ?_) hbase hemitted hsuper
      (fun h => hne (eq_of_identity_eq hbase hemitted h)) hacc
    obtain ⟨source, -, hsource⟩ := List.mem_filterMap.mp he
    exact (Definition.declaration?_fields hsource).2
  · obtain ⟨d, hd, rfl⟩ := himplemented o ho i hi
    have hname : ValidName d.name := (merge_wellFormed (wellFormed_of_parse hparse) _ hd).name
    have hlisted := List.mem_map_of_mem (f := Declaration.baseName table) hi
    rw [Declaration.baseName_eq hscalar hname] at hlisted
    refine ⟨?_, ⟨_, (mem_ordered_outline hdistinct).mpr ⟨.interface d, hd, rfl⟩, ?_⟩, acc_interface hdistinct hd⟩
    · rwa [Definition.bases, if_neg (by simpa using List.ne_nil_of_mem hi)]
    · exact (Declaration.make_fields _ _ _ _).1

/-- An object that comes first in the schema and stands in a circle with its interface. -/
theorem base_class_first_cycle :
    let node : FieldsType := { name := "Node", fields := [{ name := "owner", type := .named "A" }] }
    let a : FieldsType := { name := "A", interfaces := ["Node"] }
    let doc : Document := ⟨[.object a, .interface node]⟩
    let ds := (doc.merge.outline {}).ordered
    Document.parse doc.print = .ok doc ∧ doc.merge.declaredNames.Nodup ∧
      (∀ o, .object o ∈ doc.merge.definitions → ∀ i ∈ o.interfaces,
        ∃ d, .interface d ∈ doc.merge.definitions ∧ d.name = i) ∧
      [(Declaration.ofInterface (doc.merge.scalarTable {}) node).1,
        (Declaration.ofObject (doc.merge.scalarTable {}) a).1].Sublist ds := by
  intro node a doc ds
  have hmerge : doc.merge = doc := merge_of_plain rfl
  have hname : ∀ name ∈ ["A", "Node", "owner"], IsName name.toList := by decide
  have hwell : doc.WellFormed := by
    refine List.forall_mem_cons.mpr ⟨?_, List.forall_mem_singleton.mpr ?_⟩
    · exact ⟨hname _ (by decide), List.forall_mem_singleton.mpr (hname _ (by decide)), List.forall_mem_nil _,
        List.forall_mem_nil _⟩
    · refine ⟨hname _ (by decide), List.forall_mem_nil _, List.forall_mem_nil _, List.forall_mem_singleton.mpr ?_⟩
      exact ⟨hname _ (by decide), List.forall_mem_nil _, .named (hname _ (by decide)), List.forall_mem_nil _⟩
  have hparse := parse_print hwell
  have hdistinct : doc.merge.declaredNames.Nodup := by rw [hmerge]; decide
  have himplemented : ∀ o, .object o ∈ doc.merge.definitions → ∀ i ∈ o.interfaces,
      ∃ d, .interface d ∈ doc.merge.definitions ∧ d.name = i := by
    rw [hmerge]
    intro o ho i hi
    have hcases : o = a := by simpa [doc] using ho
    rw [hcases, List.mem_singleton] at hi
    exact ⟨node, by simp [doc], hi.symm⟩
  have hfacts := @base_class_first {} _ doc hparse hdistinct himplemented
  dsimp only at hfacts
  refine ⟨hparse, hdistinct, himplemented, ?_⟩
  simp only [ds]
  rw [hmerge] at hfacts ⊢
  obtain ⟨-, hemitted, hfirst, hinterface⟩ := hfacts
  have ha : Definition.object a ∈ doc.definitions := by simp [doc]
  have hn : Definition.interface node ∈ doc.definitions := by simp [doc]
  obtain ⟨hlisted, -, hacc⟩ := hinterface a ha "Node" List.mem_cons_self (by decide)
  exact (hfirst (.object a) ha _ rfl).2 _ ((hemitted _).mpr ⟨.interface node, hn, rfl⟩) hlisted (by decide)
    (fun _ => ⟨a, rfl, List.cons_ne_nil _ _⟩) (by decide) hacc

/-- An object and an interface that is named like the target of a built-in scalar. -/
def namesakes : Document :=
  let fields : List Field := [{ name := "id", type := .named "ID" }]
  ⟨[.object { name := "A", interfaces := ["str"], fields }, .interface { name := "str", fields }]⟩

theorem namesakes_wellFormed : namesakes.WellFormed := by
  have hname : ∀ name ∈ ["A", "str", "id", "ID"], IsName name.toList := by decide
  have hfields : ∀ f ∈ ([{ name := "id", type := .named "ID" }] : List Field), f.WellFormed maxNesting :=
    List.forall_mem_singleton.mpr
      ⟨hname _ (by decide), List.forall_mem_nil _, .named (hname _ (by decide)), List.forall_mem_nil _⟩
  refine List.forall_mem_cons.mpr ⟨?_, List.forall_mem_singleton.mpr ?_⟩
  · exact ⟨hname _ (by decide), List.forall_mem_singleton.mpr (hname _ (by decide)), List.forall_mem_nil _, hfields⟩
  · exact ⟨hname _ (by decide), List.forall_mem_nil _, List.forall_mem_nil _, hfields⟩

/-- A class may come before its base where the base is named like a scalar's target. -/
theorem base_class_late :
    generate {} "type A implements str \x7b id : ID \x7d interface str \x7b id : ID \x7d" =
      .ok ("from typing import Optional\nfrom pydantic import BaseModel\n\n\n" ++
        "class A(str):\n    id: Optional[str]\n\n\n" ++ "class str(BaseModel):\n    id: Optional[str]\n") := by
  have htext : namesakes.print = "type A implements str \x7b id : ID \x7d interface str \x7b id : ID \x7d" := by
    decide
  have hmerge : namesakes.merge = namesakes := merge_of_plain rfl
  have horder : (namesakes.outline {}).graph.order = ["A", "str"] := by decide +kernel
  have hordered : (namesakes.outline {}).ordered.map (·.text) =
      ["class A(str):\n    id: Optional[str]", "class str(BaseModel):\n    id: Optional[str]"] := by
    rw [Outline.ordered, horder]
    decide
  have hheader : namesakes.header {} = "from typing import Optional\nfrom pydantic import BaseModel" := by
    decide
  rw [← htext, generate_eq (parse_print namesakes_wellFormed), hmerge, Outline.moduleText, Outline.body, hordered,
    hheader]
  rfl

end Document

end SchemaModels
