import SchemaModels.Proofs.Lines

/-! The import header, read off a schema. A definition refers to types by name, at the base of its fields'
types, as members of a union or as interfaces of an object, and it has fields with names and types of their
own. These alone decide what the header of a module imports; the header is all that stands before the first
empty line of the module. -/

namespace SchemaModels
set_option autoImplicit false

/-! ## References and attributes -/

/-- Whether one of the layers of a type is a list. -/
def TypeExpr.hasList : TypeExpr → Bool
  | named _ => false
  | list _ => true
  | nonNull inner => inner.hasList

namespace Definition

/-- The names and types of the fields of an object, interface or input type. -/
def attributes : Definition → List (String × TypeExpr)
  | object d => d.fields.map fun f => (f.name, f.type)
  | interface d => d.fields.map fun f => (f.name, f.type)
  | input d => d.fields.map fun f => (f.name, f.type)
  | _ => []

/-- The types that a definition names apart from its fields: interfaces of an object, members of a union. -/
def partners : Definition → List String
  | object d => d.interfaces
  | union d => d.members
  | _ => []

/-- All types that a definition names. -/
def references (d : Definition) : List String :=
  d.partners ++ d.attributes.map fun f => f.2.baseName

def isEnum : Definition → Bool
  | enum _ => true
  | _ => false

def isUnion : Definition → Bool
  | union _ => true
  | _ => false

end Definition

namespace Document

def attributes (doc : Document) : List (String × TypeExpr) :=
  doc.definitions.flatMap Definition.attributes

def references (doc : Document) : List String :=
  doc.definitions.flatMap Definition.references

end Document

/-! ## What they need -/

namespace Imports

theorem union_assoc (a b c : Imports) : a ∪ b ∪ c = a ∪ (b ∪ c) := by
  simp only [Union.union, Bool.or_assoc]

theorem empty_union (a : Imports) : ∅ ∪ a = a := by
  cases a
  simp [Union.union, EmptyCollection.emptyCollection]

theorem union_empty (a : Imports) : a ∪ ∅ = a := by
  cases a
  simp [Union.union, EmptyCollection.emptyCollection]

theorem union_comm (a b : Imports) : a ∪ b = b ∪ a := by
  simp only [Union.union, Bool.or_comm]

/-- What references and attributes need under a table of scalars. -/
def needed (table : ScalarTable) (references : List String) (attributes : List (String × TypeExpr)) : Imports where
  any := references.any fun name => table.get? name = some .any
  optional := references.any (fun name => table.get? name ≠ some .any) || attributes.any fun f => f.2.hasList
  list := attributes.any fun f => f.2.hasList
  field := attributes.any fun f => Attribute.isReserved f.1

theorem needed_append (table : ScalarTable) (names names' : List String) (fields fields' : List (String × TypeExpr)) :
    needed table (names ++ names') (fields ++ fields') = needed table names fields ∪ needed table names' fields' := by
  simp [needed, Union.union, Bool.or_assoc, Bool.or_left_comm]

end Imports

namespace Declaration

theorem allImports_cons (i : Imports) (is : List Imports) : allImports (i :: is) = i ∪ allImports is := by
  have hfold := @List.foldl_assoc Imports (· ∪ ·) ⟨Imports.union_assoc⟩ is i ∅
  rw [Imports.union_empty] at hfold
  rw [allImports, List.foldl_cons, Imports.empty_union, hfold]
  rfl

theorem allImports_append (is js : List Imports) : allImports (is ++ js) = allImports is ∪ allImports js := by
  induction is with
  | nil => exact (Imports.empty_union _).symm
  | cons i is ih => rw [List.cons_append, allImports_cons, allImports_cons, ih, Imports.union_assoc]

end Declaration

theorem TypeHint.imports_named (table : ScalarTable) (name : String) :
    (named table name).imports = .needed table [name] [] := by
  unfold named
  split <;> simp_all [Imports.needed]

theorem TypeHint.imports_ofType (table : ScalarTable) (type : TypeExpr) :
    (ofType table type).imports =
      (named table type.baseName).imports ∪ { optional := type.hasList, list := type.hasList } := by
  induction type with
  | named name => exact (Imports.union_empty _).symm
  | list item ih =>
    -- Lists inside lists need nothing more than one list does.
    show (ofType table item).imports ∪ _ = _
    rw [ih]
    cases item.hasList <;> simp [Union.union, TypeExpr.baseName, TypeExpr.hasList]
  | nonNull inner ih => exact ih

theorem Attribute.imports_ofField (table : ScalarTable) (name : String) (type : TypeExpr) :
    (ofField table name type).imports = .needed table [type.baseName] [(name, type)] := by
  show (TypeHint.ofType table type).imports ∪ _ = _
  rw [TypeHint.imports_ofType, TypeHint.imports_named]
  simp [Imports.needed, Union.union]

theorem Declaration.allImports_named (table : ScalarTable) (names : List String) :
    allImports (names.map fun name => (TypeHint.named table name).imports) = .needed table names [] := by
  induction names with
  | nil => rfl
  | cons name names ih =>
    rw [List.map_cons, allImports_cons, ih, TypeHint.imports_named]
    exact (Imports.needed_append table [name] names [] []).symm

theorem Declaration.allImports_ofField {α : Type} (table : ScalarTable) (fields : List α) (name : α → String)
    (type : α → TypeExpr) :
    allImports ((fields.map fun f => Attribute.ofField table (name f) (type f)).map (·.imports)) =
      .needed table (fields.map fun f => (type f).baseName) (fields.map fun f => (name f, type f)) := by
  induction fields with
  | nil => rfl
  | cons f fields ih =>
    rw [List.map_cons, List.map_cons, allImports_cons, ih, Attribute.imports_ofField]
    exact (Imports.needed_append table [(type f).baseName] _ [(name f, type f)] _).symm

/-! ## What definitions need -/

def Definition.imports (table : ScalarTable) (ds : List Definition) : Imports :=
  .needed table (ds.flatMap references) (ds.flatMap attributes) ∪
    { union := ds.any isUnion, enum := ds.any isEnum }

theorem Definition.imports_cons (table : ScalarTable) (d : Definition) (ds : List Definition) :
    imports table (d :: ds) = imports table [d] ∪ imports table ds := by
  simp only [imports, List.flatMap_cons, List.flatMap_nil, List.append_nil, Imports.needed_append]
  simp [Union.union, Imports.needed]

theorem Declaration.imports_of_declared {table : ScalarTable} {style : EnumStyle} {definition : Definition}
    {declared : Declaration × Imports} (h : ofDefinition? table style definition = some declared) :
    declared.2 = Definition.imports table [definition] := by
  have hsingle : Definition.imports table [definition] =
      .needed table (definition.partners ++ definition.attributes.map fun f => f.2.baseName) definition.attributes ∪
        { union := definition.isUnion, enum := definition.isEnum } := by
    simp [Definition.imports, Definition.references]
  rw [hsingle]
  cases definition with
  | object d =>
    cases h
    show allImports _ = Imports.needed table (d.interfaces ++ (d.fields.map _).map _) (d.fields.map _) ∪ ∅
    rw [allImports_append, allImports_named, allImports_ofField, Imports.union_empty, List.map_map]
    exact (Imports.needed_append table d.interfaces _ [] _).symm
  | interface d =>
    cases h
    show allImports _ = Imports.needed table ((d.fields.map _).map _) (d.fields.map _) ∪ ∅
    rw [allImports_ofField, Imports.union_empty, List.map_map]
    rfl
  | input d =>
    cases h
    show allImports _ = Imports.needed table ((d.fields.map _).map _) (d.fields.map _) ∪ ∅
    rw [allImports_ofField, Imports.union_empty, List.map_map]
    rfl
  | enum d =>
    cases h
    rfl
  | union d =>
    cases h
    show _ ∪ allImports ((d.members.map _).map _) = Imports.needed table (d.members ++ []) [] ∪ _
    rw [List.map_map, List.append_nil, Imports.union_comm, ← allImports_named]
    rfl
  | _ => cases h

theorem Declaration.imports_of_undeclared {table : ScalarTable} {style : EnumStyle} {definition : Definition}
    (h : ofDefinition? table style definition = none) : Definition.imports table [definition] = ∅ := by
  cases definition <;> first | rfl | cases h

theorem Declaration.allImports_declared (table : ScalarTable) (style : EnumStyle) (ds : List Definition) :
    allImports ((ds.filterMap (ofDefinition? table style)).map Prod.snd) = Definition.imports table ds := by
  induction ds with
  | nil => rfl
  | cons d ds ih =>
    rw [Definition.imports_cons, ← ih]
    cases h : ofDefinition? table style d with
    | none => rw [List.filterMap_cons_none h, imports_of_undeclared h, Imports.empty_union]
    | some declared =>
      rw [List.filterMap_cons_some h, List.map_cons, allImports_cons, imports_of_declared h]

/-! ## The lines of the header -/

/-- The lines of a text before its first empty line. -/
def leadingLines (text : String) : List String :=
  ((text.toList.splitOn '\n').takeWhile (· ≠ [])).map String.ofList

theorem leadingLines_header {lines : List String} (hne : lines ≠ []) (h : ∀ l ∈ lines, l ≠ "" ∧ OneLine l)
    (rest : String) : leadingLines ("\n".intercalate lines ++ Outline.separator ++ rest) = lines := by
  have htext : ("\n".intercalate lines ++ Outline.separator ++ rest).toList =
      ['\n'].intercalate (lines.map String.toList) ++ '\n' :: ([] ++ '\n' :: '\n' :: rest.toList) := by
    simp only [String.toList_append, String.toList_intercalate]
    simp [Outline.separator]
  have hlines : ∀ l ∈ lines.map String.toList, '\n' ∉ l := by
    rw [List.forall_mem_map]
    exact fun l hl => (h l hl).2
  have hfull : ∀ l ∈ lines.map String.toList, decide (l ≠ []) = true := by
    rw [List.forall_mem_map]
    intro l hl
    simpa using (h l hl).1
  rw [leadingLines, htext, List.splitOn_append_cons_self, List.splitOn_intercalate _ hlines (by simpa using hne),
    List.splitOn_append_cons_self, List.splitOn_nil, List.takeWhile_append_of_pos hfull]
  simp [Function.comp_def]

theorem Imports.typingNames_sublist (i : Imports) : i.typingNames.Sublist ["Any", "Optional", "List", "Union"] := by
  have hname : ∀ (needed : Bool) (name : String), (if needed then [name] else []).Sublist [name] := by
    intro needed name
    cases needed with
    | false => exact List.nil_sublist _
    | true => exact List.Sublist.refl _
  exact (((hname i.any _).append (hname i.optional _)).append (hname i.list _)).append (hname i.union _)

theorem Imports.mem_typingNames (i : Imports) :
    ("Any" ∈ i.typingNames ↔ i.any = true) ∧ ("Optional" ∈ i.typingNames ↔ i.optional = true) ∧
      ("List" ∈ i.typingNames ↔ i.list = true) ∧ ("Union" ∈ i.typingNames ↔ i.union = true) := by
  simp [typingNames]

namespace Document

theorem imports_flags (doc : Document) (table : ScalarTable) :
    ((Definition.imports table doc.definitions).any = true ↔ ∃ name ∈ doc.references, table.get? name = some .any) ∧
    ((Definition.imports table doc.definitions).optional = true ↔
      (∃ name ∈ doc.references, table.get? name ≠ some .any) ∨ ∃ f ∈ doc.attributes, f.2.hasList = true) ∧
    ((Definition.imports table doc.definitions).list = true ↔ ∃ f ∈ doc.attributes, f.2.hasList = true) ∧
    ((Definition.imports table doc.definitions).union = true ↔ ∃ d ∈ doc.definitions, d.isUnion = true) ∧
    (Definition.imports table doc.definitions).enum = doc.definitions.any Definition.isEnum ∧
    (Definition.imports table doc.definitions).field = doc.attributes.any fun f => Attribute.isReserved f.1 := by
  simp only [Definition.imports, Union.union, Imports.needed, references, attributes, Bool.or_false, Bool.false_or,
    Bool.or_eq_true, List.any_eq_true, decide_eq_true_eq, and_self]

theorem leadingLines_plainModule (doc : Document) (settings : Settings) :
    leadingLines (doc.plainModule settings) =
      (Definition.imports (doc.scalarTable settings) doc.definitions).headerLines settings.enumStyle := by
  have himports : Declaration.allImports ((doc.declarations settings).map Prod.snd) =
      Definition.imports (doc.scalarTable settings) doc.definitions :=
    Declaration.allImports_declared _ _ _
  rw [plainModule, himports, Outline.moduleText, Imports.header, String.append_assoc]
  exact leadingLines_header (Imports.headerLines_ne_nil _ _) (Imports.line_headerLines _ _) _

/-- Before its first empty line a module has the line of the enum style if an enum is defined, a line for
the names from `typing` if it needs any, and the line for pydantic. Each name from `typing` is there just
if the references, the list layers or the unions of the merged schema call for it. -/
theorem leadingLines_pythonModule (doc : Document) (settings : Settings) :
    ∃ typing : List String,
      leadingLines (doc.pythonModule settings) =
        (if doc.merge.definitions.any Definition.isEnum then [settings.enumStyle.importLine] else []) ++
        (if typing = [] then [] else ["from typing import " ++ ", ".intercalate typing]) ++
        ["from pydantic import BaseModel" ++
          if doc.merge.attributes.any fun f => Attribute.isReserved f.1 then ", Field" else ""] ∧
      typing.Sublist ["Any", "Optional", "List", "Union"] ∧
      ("Any" ∈ typing ↔ ∃ name ∈ doc.merge.references, (doc.merge.scalarTable settings).get? name = some .any) ∧
      ("Optional" ∈ typing ↔
        (∃ name ∈ doc.merge.references, (doc.merge.scalarTable settings).get? name ≠ some .any) ∨
          ∃ f ∈ doc.merge.attributes, f.2.hasList = true) ∧
      ("List" ∈ typing ↔ ∃ f ∈ doc.merge.attributes, f.2.hasList = true) ∧
      ("Union" ∈ typing ↔ ∃ d ∈ doc.merge.definitions, d.isUnion = true) := by
  rw [pythonModule_eq, leadingLines_plainModule]
  generalize doc.merge = merged
  obtain ⟨hany, hoptional, hlist, hunion, henum, hfield⟩ := merged.imports_flags (merged.scalarTable settings)
  generalize Definition.imports (merged.scalarTable settings) merged.definitions = needed at *
  obtain ⟨hnamesAny, hnamesOptional, hnamesList, hnamesUnion⟩ := needed.mem_typingNames
  refine ⟨needed.typingNames, ?_, needed.typingNames_sublist, hnamesAny.trans hany, hnamesOptional.trans hoptional,
    hnamesList.trans hlist, hnamesUnion.trans hunion⟩
  rw [Imports.headerLines, henum, hfield]
  congr 2
  · simp
  · split <;> rfl

end Document

end SchemaModels
