import SchemaModels.Proofs.Lines
import SchemaModels.Proofs.RoundTrip
import SchemaModels.Proofs.ScalarLookup

/-! The pieces of a module. Cut at its separators, the module of a schema falls into the import header
and one piece for each name that the merged schema declares. A piece is the text of the first
definition under its name, which depends on that definition, the scalars and the enum style only. -/

namespace SchemaModels
set_option autoImplicit false

/-! ## Scalars -/

/-- The targets in the table of a document are those of the settings, `Any` and the built-in ones. -/
theorem ScalarTable.target_ofDocument {doc : Document} {overrides : Registry ScalarTarget} {name : String}
    {target : ScalarTarget} (h : (ofDocument doc overrides).get? name = some target) :
    target ∈ overrides.values ∨ target = .any ∨ target ∈ builtin.values := by
  rw [get?_ofDocument, Option.or_eq_some_iff, Option.or_eq_some_iff] at h
  rcases h with hset | ⟨-, hbuiltin | ⟨-, hany⟩⟩
  · exact Or.inl (overrides.mem_values_iff.mpr ⟨name, hset⟩)
  · exact Or.inr (Or.inr (builtin.mem_values_iff.mpr ⟨name, hbuiltin⟩))
  · split at hany
    · exact Or.inr (Or.inl (Option.some.inj hany).symm)
    · cases hany

theorem ScalarTable.oneLineTargets_ofDocument (doc : Document) {overrides : Registry ScalarTarget}
    (h : ∀ target ∈ overrides.values, OneLine target.identity) :
    (ofDocument doc overrides).OneLineTargets := by
  have hbuiltin : ∀ target ∈ builtin.values, OneLine target.identity := by decide
  intro name target hget
  rcases target_ofDocument hget with hmem | rfl | hmem
  · exact h target hmem
  · decide
  · exact hbuiltin target hmem

namespace Document

/-! ## Renderings -/

/-- The text of the first definition that a document declares under a name. -/
def rendering? (doc : Document) (settings : Settings) (name : String) : Option String :=
  (doc.definitions.find? fun d => d.declaredName? == some name).bind fun definition =>
    (definition.declaration? (doc.scalarTable settings) settings.enumStyle).map (·.text)

/-- The declaration that is kept under a name is that of the first definition. -/
theorem get?_outline (doc : Document) (settings : Settings) (name : String) :
    (doc.outline settings).declarations.get? name =
      (doc.definitions.find? fun d => d.declaredName? == some name).bind fun definition =>
        definition.declaration? (doc.scalarTable settings) settings.enumStyle := by
  rw [outline, Outline.get?_ofList, List.find?_filterMap]
  congr 2
  funext definition
  rw [← definition.map_identity_declaration? (doc.scalarTable settings) settings.enumStyle]
  cases definition.declaration? (doc.scalarTable settings) settings.enumStyle <;> simp

theorem rendering?_of_mem {doc : Document} {settings : Settings} {d : Declaration}
    (h : d ∈ (doc.outline settings).ordered) : doc.rendering? settings d.identity = some d.text := by
  have hget := (doc.get?_outline settings d.identity).symm.trans (Outline.mem_ordered_iff.mp h)
  obtain ⟨definition, hfind, hdeclaration⟩ := Option.bind_eq_some_iff.mp hget
  rw [rendering?, hfind, Option.bind_some, hdeclaration, Option.map_some]

/-- Every text that a module is made of is solid. -/
theorem solid_texts {doc : Document} (hwell : doc.WellFormed) {settings : Settings}
    (h : ∀ target ∈ settings.scalars.values, OneLine target.identity) :
    ∀ d ∈ (doc.outline settings).ordered, Solid d.text.toList := by
  intro d hd
  obtain ⟨definition, hmem, hdefinition⟩ := List.mem_filterMap.mp (Outline.mem_of_mem_ordered hd)
  exact Definition.solid_declaration? (ScalarTable.oneLineTargets_ofDocument doc h) (hwell definition hmem) hdefinition

/-- The text of a module without its last line end: the header and the declarations with separators
between them. -/
theorem moduleText_eq {o : Outline} (h : o.ordered ≠ []) (header : String) :
    (o.moduleText header).toList =
      Outline.separator.toList.intercalate ((header :: o.ordered.map Declaration.text).map String.toList) ++ ['\n'] := by
  have hjoin : header ++ Outline.separator ++ o.body =
      Outline.separator.intercalate (header :: o.ordered.map Declaration.text) := by
    rw [String.intercalate_cons_of_ne_nil (List.map_eq_nil_iff.not.mpr h)]
    rfl
  rw [Outline.moduleText, hjoin, String.toList_append, String.toList_intercalate]
  rfl

/-- The module of a schema that declares something ends in a line end; cut at the separators without
it, it falls into the header and the renderings of the declared names, each once. -/
theorem pieces_of_module {settings : Settings} {text : String} {doc : Document}
    (hparse : Document.parse text = .ok doc) (hdeclares : ∃ d ∈ doc.definitions, d.declaredName? ≠ none)
    (htargets : ∀ target, .named target ∈ settings.scalars.values → '\n' ∉ target.toList) :
    ∃ (output : String) (names texts : List String), generate settings text = .ok output ∧
      names.Nodup ∧ (∀ name, name ∈ names ↔ name ∈ doc.declaredNames) ∧
      names.map (doc.merge.rendering? settings) = texts.map some ∧ output.toList.getLast? = some '\n' ∧
      pieces output.toList.dropLast = (doc.merge.header settings :: texts).map String.toList := by
  have honeLine : ∀ target ∈ settings.scalars.values, OneLine target.identity := by
    intro target hmem
    cases target with
    | named target => exact htargets target hmem
    | any => decide
  have hwell := merge_wellFormed (wellFormed_of_parse hparse)
  have hnames : ∀ name, name ∈ (doc.merge.outline settings).ordered.map Declaration.identity ↔
      name ∈ doc.declaredNames := by
    intro name
    rw [outline, Outline.mem_identities, identities_eq, declaredNames_merge]
  have hsome : (doc.merge.outline settings).ordered ≠ [] := by
    obtain ⟨d, hd, hname⟩ := hdeclares
    obtain ⟨name, hname⟩ := Option.ne_none_iff_exists'.mp hname
    have hmem := (hnames name).mpr (List.mem_filterMap.mpr ⟨d, hd, hname⟩)
    exact fun hnil => by simp [hnil] at hmem
  have htext := moduleText_eq hsome (doc.merge.header settings)
  refine ⟨_, (doc.merge.outline settings).ordered.map Declaration.identity,
    (doc.merge.outline settings).ordered.map Declaration.text, generate_eq hparse, Outline.nodup_identities _, hnames,
    ?_, ?_, ?_⟩
  · rw [List.map_map, List.map_map]
    exact List.map_congr_left fun d hd => rendering?_of_mem hd
  · rw [htext, List.getLast?_concat]
  · rw [htext, List.dropLast_concat]
    refine pieces_intercalate (List.cons_ne_nil _ _) ?_
    rw [List.forall_mem_map, List.forall_mem_cons, List.forall_mem_map]
    exact ⟨Imports.solid_header _ _, solid_texts hwell honeLine⟩

/-- A name that is declared twice and extended once. -/
theorem pieces_of_module_repeated :
    let a : Definition := .object { name := "A", fields := [{ name := "at", type := .named "Date" }] }
    let doc : Document := ⟨[a, .enum { name := "A" }, .extension (.object { name := "A", interfaces := ["I"] })]⟩
    let settings : Settings := { scalars := .ofList [("Date", .named "date")] }
    Document.parse doc.print = .ok doc ∧ (∃ d ∈ doc.definitions, d.declaredName? ≠ none) ∧
      (∀ target, .named target ∈ settings.scalars.values → '\n' ∉ target.toList) ∧
      ∃ (output : String) (names texts : List String), generate settings doc.print = .ok output ∧
        names.Nodup ∧ (∀ name, name ∈ names ↔ name ∈ doc.declaredNames) ∧
        names.map (doc.merge.rendering? settings) = texts.map some ∧ output.toList.getLast? = some '\n' ∧
        pieces output.toList.dropLast = (doc.merge.header settings :: texts).map String.toList := by
  intro a doc settings
  have hname : ∀ name ∈ ["A", "I", "at", "Date"], IsName name.toList := by decide
  have hwell : doc.WellFormed := by
    refine List.forall_mem_cons.mpr ⟨?_, List.forall_mem_cons.mpr ⟨?_, List.forall_mem_singleton.mpr ⟨?_, rfl, rfl⟩⟩⟩
    · refine ⟨hname _ (by decide), List.forall_mem_nil _, List.forall_mem_nil _, List.forall_mem_singleton.mpr ?_⟩
      exact ⟨hname _ (by decide), List.forall_mem_nil _, .named (hname _ (by decide)), List.forall_mem_nil _⟩
    · exact ⟨hname _ (by decide), List.forall_mem_nil _, List.forall_mem_nil _⟩
    · exact ⟨hname _ (by decide), List.forall_mem_singleton.mpr (hname _ (by decide)), List.forall_mem_nil _,
        List.forall_mem_nil _⟩
  have hparse := parse_print hwell
  have hdeclares : ∃ d ∈ doc.definitions, d.declaredName? ≠ none := ⟨a, List.mem_cons_self, Option.some_ne_none _⟩
  have htargets : ∀ target, .named target ∈ settings.scalars.values → '\n' ∉ target.toList := by
    intro target hmem
    have hdate : ScalarTarget.named target = .named "date" := List.mem_singleton.mp hmem
    cases hdate
    decide
  exact ⟨hparse, hdeclares, htargets, pieces_of_module hparse hdeclares htargets⟩

end Document

end SchemaModels
