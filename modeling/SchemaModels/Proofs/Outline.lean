import SchemaModels.Proofs.Merge
import SchemaModels.Proofs.Order

/-! Outlines in order. The first declaration under each identity is kept, the graph of an outline is
built by calls that can be read off its declarations, and in the order of the graph every declaration
that was kept comes once, after its base classes. The module of a document is the text of its
outline. -/

namespace SchemaModels
set_option autoImplicit false

/-! ## Declarations -/

namespace Declaration

theorem dependsOn_fields (d : Declaration) (identity : String) :
    (d.dependsOn identity).identity = d.identity ∧ (d.dependsOn identity).text = d.text ∧
      (d.dependsOn identity).supertypes = d.supertypes ∧
      ∀ x, x ∈ (d.dependsOn identity).dependencies ↔ x ∈ d.dependencies ∨ x = identity := by
  unfold dependsOn
  split
  · next h =>
    refine ⟨rfl, rfl, rfl, fun x => ⟨Or.inl, fun hx => ?_⟩⟩
    rcases hx with hx | rfl
    · exact hx
    · exact List.contains_iff_mem.mp h
  · exact ⟨rfl, rfl, rfl, fun x => by simp⟩

theorem inherits_fields (d : Declaration) (identity : String) :
    (d.inherits identity).identity = d.identity ∧ (d.inherits identity).text = d.text ∧
      (∀ x, x ∈ (d.inherits identity).supertypes ↔ x ∈ d.supertypes ∨ x = identity) ∧
      ∀ x, x ∈ (d.inherits identity).dependencies ↔ x ∈ d.dependencies ∨ x = identity := by
  unfold inherits
  dsimp only
  split
  · next h =>
    obtain ⟨hidentity, htext, hsupertypes, hdependencies⟩ := d.dependsOn_fields identity
    refine ⟨hidentity, htext, fun x => ?_, hdependencies⟩
    rw [hsupertypes]
    refine ⟨Or.inl, fun hx => ?_⟩
    rcases hx with hx | rfl
    · exact hx
    · exact List.contains_iff_mem.mp h
  · obtain ⟨hidentity, htext, hsupertypes, hdependencies⟩ :=
      dependsOn_fields { d with supertypes := d.supertypes ++ [identity] } identity
    refine ⟨hidentity, htext, fun x => ?_, hdependencies⟩
    rw [hsupertypes]
    simp

theorem foldl_dependsOn_fields (d : Declaration) (identities : List String) :
    (identities.foldl dependsOn d).identity = d.identity ∧ (identities.foldl dependsOn d).text = d.text ∧
      (identities.foldl dependsOn d).supertypes = d.supertypes := by
  induction identities generalizing d with
  | nil => exact ⟨rfl, rfl, rfl⟩
  | cons identity identities ih =>
    obtain ⟨hidentity, htext, hsupertypes, -⟩ := d.dependsOn_fields identity
    obtain ⟨h1, h2, h3⟩ := ih (d.dependsOn identity)
    exact ⟨h1.trans hidentity, h2.trans htext, h3.trans hsupertypes⟩

theorem foldl_inherits_fields (d : Declaration) (identities : List String) :
    (identities.foldl inherits d).identity = d.identity ∧ (identities.foldl inherits d).text = d.text ∧
      (∀ x, x ∈ (identities.foldl inherits d).supertypes ↔ x ∈ d.supertypes ∨ x ∈ identities) ∧
      ∀ x, x ∈ (identities.foldl inherits d).dependencies ↔ x ∈ d.dependencies ∨ x ∈ identities := by
  induction identities generalizing d with
  | nil => exact ⟨rfl, rfl, by simp, by simp⟩
  | cons identity identities ih =>
    obtain ⟨hidentity, htext, hsupertypes, hdependencies⟩ := d.inherits_fields identity
    obtain ⟨h1, h2, h3, h4⟩ := ih (d.inherits identity)
    refine ⟨h1.trans hidentity, h2.trans htext, fun x => ?_, fun x => ?_⟩
    · rw [List.foldl_cons, h3, hsupertypes, List.mem_cons, or_assoc]
    · rw [List.foldl_cons, h4, hdependencies, List.mem_cons, or_assoc]

/-- What a declaration is made of; its base classes are among its dependencies. -/
theorem make_fields (identity text : String) (dependencies supertypes : List String) :
    (make identity text dependencies supertypes).identity = identity ∧
      (make identity text dependencies supertypes).text = text ∧
      (∀ x, x ∈ (make identity text dependencies supertypes).supertypes ↔ x ∈ supertypes) ∧
      ∀ x ∈ supertypes, x ∈ (make identity text dependencies supertypes).dependencies := by
  obtain ⟨hidentity, htext, hsupertypes⟩ := foldl_dependsOn_fields { identity, text } dependencies
  obtain ⟨h1, h2, h3, h4⟩ := foldl_inherits_fields (dependencies.foldl dependsOn { identity, text }) supertypes
  refine ⟨h1.trans hidentity, h2.trans htext, fun x => ?_, fun x hx => (h4 x).mpr (Or.inr hx)⟩
  rw [make, h3, hsupertypes]
  simp

end Declaration

/-! ## Outlines -/

namespace Outline

/-- The first declaration under an identity is the one that is kept. -/
theorem get?_foldl_add (o : Outline) (ds : List Declaration) (name : String) :
    (ds.foldl add o).declarations.get? name =
      (o.declarations.get? name).or (ds.find? fun d => d.identity == name) := by
  induction ds generalizing o with
  | nil => simp
  | cons d ds ih =>
    have hadd : (o.add d).declarations.get? name =
        (o.declarations.get? name).or (if d.identity = name then some d else none) := by
      rw [add, Registry.get?_offer]
      by_cases hname : name = d.identity
      · subst hname
        cases o.declarations.get? d.identity <;> simp
      · rw [if_neg hname, if_neg fun he => hname he.symm, Option.or_none]
    rw [List.foldl_cons, ih, hadd, Option.or_assoc]
    by_cases hname : d.identity = name
    · rw [if_pos hname, Option.some_or, List.find?_cons_of_pos (by simpa using hname)]
    · rw [if_neg hname, Option.none_or, List.find?_cons_of_neg (by simpa using hname)]

theorem get?_ofList (ds : List Declaration) (name : String) :
    (ofList ds).declarations.get? name = ds.find? fun d => d.identity == name := by
  rw [ofList, get?_foldl_add]
  rfl

theorem identity_of_get? {ds : List Declaration} {name : String} {d : Declaration}
    (h : (ofList ds).declarations.get? name = some d) : d.identity = name := by
  rw [get?_ofList] at h
  simpa using List.find?_some h

theorem mem_names_ofList {ds : List Declaration} {name : String} :
    name ∈ (ofList ds).declarations.names ↔ ∃ d ∈ ds, d.identity = name := by
  rw [← not_iff_not, ← Registry.get?_eq_none_iff, get?_ofList, List.find?_eq_none]
  simp

/-! ## The graph of an outline -/

/-- The call that records a reference of a declaration. -/
def referenceCall (d : Declaration) (target : String) : Graph.Call :=
  if d.isSupertype target then .supertype d.identity target else .dependency d.identity target

/-- The calls that build the graph of an outline. -/
def calls (o : Outline) : List Graph.Call :=
  o.declarations.names.map .node ++ o.declarations.values.flatMap fun d => d.dependencies.map (referenceCall d)

theorem graph_eq (o : Outline) : o.graph = Graph.ofCalls o.calls := by
  have hreferences : ∀ (g : Graph) (d : Declaration),
      addReferences g d = (d.dependencies.map (referenceCall d)).foldl Graph.call g := by
    intro g d
    rw [addReferences, List.foldl_map]
    congr 1
    funext g target
    unfold referenceCall
    split <;> rfl
  have hnames : o.declarations.names.foldl Graph.addNode .empty =
      (o.declarations.names.map Graph.Call.node).foldl Graph.call .empty := by
    rw [List.foldl_map]
    rfl
  rw [graph, Graph.ofCalls, calls, List.foldl_append, List.foldl_flatMap, hnames]
  congr 1
  funext g d
  exact hreferences g d

theorem represents (o : Outline) : Graph.Represents o.calls o.graph :=
  o.graph_eq ▸ Graph.ofCalls_represents o.calls

theorem name_mem_graph (o : Outline) {name : String} (h : name ∈ o.declarations.names) :
    name ∈ o.graph.nodes.names := by
  rw [o.represents.names, Graph.mem_mentioned]
  exact ⟨.node name, List.mem_append_left _ (List.mem_map_of_mem h), List.mem_singleton_self name⟩

/-- The order brings every declaration that was kept once. -/
theorem ordered_perm (o : Outline) : o.ordered.Perm o.declarations.values := by
  have hnodup : o.graph.order.Nodup :=
    o.represents.order_perm.nodup_iff.mpr o.graph.nodes.names_nodup
  have hdeclared : (o.graph.order.filter (· ∈ o.declarations.names)).Perm o.declarations.names := by
    refine (List.perm_ext_iff_of_nodup (hnodup.filter _) o.declarations.names_nodup).mpr fun name => ?_
    rw [List.mem_filter, decide_eq_true_eq, o.represents.order_perm.mem_iff]
    exact ⟨And.right, fun h => ⟨o.name_mem_graph h, h⟩⟩
  have hskip : o.ordered = (o.graph.order.filter (· ∈ o.declarations.names)).filterMap o.declarations.get? := by
    rw [ordered, List.filterMap_filter]
    congr 1
    funext name
    by_cases hname : name ∈ o.declarations.names
    · rw [if_pos (decide_eq_true hname)]
    · rw [if_neg (by simpa using hname)]
      exact (Registry.get?_eq_none_iff _ _).mpr hname
  rw [hskip, ← o.declarations.filterMap_names]
  exact hdeclared.filterMap _

theorem mem_ordered_iff {ds : List Declaration} {d : Declaration} :
    d ∈ (ofList ds).ordered ↔ (ofList ds).declarations.get? d.identity = some d := by
  rw [(ofList ds).ordered_perm.mem_iff, ← Registry.filterMap_names, List.mem_filterMap]
  constructor
  · rintro ⟨name, -, hget⟩
    exact identity_of_get? hget ▸ hget
  · exact fun hget => ⟨d.identity, (Registry.mem_names_iff _).mpr ⟨d, hget⟩, hget⟩

theorem map_identity_values (ds : List Declaration) :
    (ofList ds).declarations.values.map Declaration.identity = (ofList ds).declarations.names := by
  rw [← Registry.filterMap_names, List.map_filterMap]
  refine (List.filterMap_congr fun name hname => ?_).trans List.filterMap_some
  obtain ⟨d, hget⟩ := (Registry.mem_names_iff _).mp hname
  rw [hget, Option.map_some, identity_of_get? hget]

/-- The identities of the declarations that were kept, in order, are distinct. -/
theorem nodup_identities (ds : List Declaration) : ((ofList ds).ordered.map Declaration.identity).Nodup := by
  rw [((ofList ds).ordered_perm.map _).nodup_iff, map_identity_values]
  exact (ofList ds).declarations.names_nodup

theorem mem_identities {ds : List Declaration} {name : String} :
    name ∈ (ofList ds).ordered.map Declaration.identity ↔ name ∈ ds.map Declaration.identity := by
  rw [List.mem_map, List.mem_map]
  constructor
  · rintro ⟨d, hd, rfl⟩
    rw [mem_ordered_iff, get?_ofList] at hd
    exact ⟨d, List.mem_of_find?_eq_some hd, rfl⟩
  · rintro ⟨d, hd, rfl⟩
    obtain ⟨e, hget⟩ := (Registry.mem_names_iff _).mp (mem_names_ofList.mpr ⟨d, hd, rfl⟩)
    have hidentity := identity_of_get? hget
    exact ⟨e, mem_ordered_iff.mpr (hidentity ▸ hget), hidentity⟩

theorem mem_of_mem_ordered {ds : List Declaration} {d : Declaration} (h : d ∈ (ofList ds).ordered) : d ∈ ds := by
  rw [mem_ordered_iff, get?_ofList] at h
  exact List.mem_of_find?_eq_some h

/-! ## Base classes -/

/-- An identity is a base class of another one among some declarations. -/
def BaseOf (ds : List Declaration) (base identity : String) : Prop :=
  base ≠ identity ∧ ∃ d ∈ ds, d.identity = identity ∧ base ∈ d.supertypes

theorem mem_calls_supertype {o : Outline} {source target : String} :
    Graph.Call.supertype source target ∈ o.calls ↔
      ∃ d ∈ o.declarations.values, d.identity = source ∧ target ∈ d.dependencies ∧ target ∈ d.supertypes := by
  simp only [calls, List.mem_append, List.mem_map, reduceCtorEq, and_false, exists_false, false_or, List.mem_flatMap]
  refine exists_congr fun d => and_congr_right fun _ => ?_
  constructor
  · rintro ⟨x, hx, he⟩
    unfold referenceCall at he
    split at he
    · next hsuper =>
      cases he
      exact ⟨rfl, hx, List.contains_iff_mem.mp hsuper⟩
    · cases he
  · rintro ⟨rfl, hx, hsuper⟩
    exact ⟨target, hx, if_pos (List.contains_iff_mem.mpr hsuper)⟩

/-- A base class comes before the class, if its own base classes do not run in a circle. -/
theorem base_first {ds : List Declaration} (hds : ∀ d ∈ ds, ∀ x ∈ d.supertypes, x ∈ d.dependencies)
    {base d : Declaration} (hbase : base ∈ (ofList ds).ordered) (hd : d ∈ (ofList ds).ordered)
    (hsuper : base.identity ∈ d.supertypes) (hne : base.identity ≠ d.identity)
    (hacc : Acc (BaseOf (ofList ds).ordered) base.identity) : [base, d].Sublist (ofList ds).ordered := by
  have hvalues := (ofList ds).ordered_perm
  have hlinked : Graph.StrictlyLinked (ofList ds).calls base.identity d.identity :=
    ⟨mem_calls_supertype.mpr ⟨d, hvalues.mem_iff.mp hd, rfl, hds d (mem_of_mem_ordered hd) _ hsuper, hsuper⟩, hne⟩
  have hsub : Subrelation (Graph.StrictlyLinked (ofList ds).calls) (BaseOf (ofList ds).ordered) := by
    rintro target source ⟨hcall, hne⟩
    obtain ⟨c, hc, hidentity, -, hsuper⟩ := mem_calls_supertype.mp hcall
    exact ⟨hne, c, hvalues.mem_iff.mpr hc, hidentity, hsuper⟩
  have horder := (ofList ds).represents.strictTarget_first hlinked (hsub.accessible hacc)
  have hmap := horder.filterMap (ofList ds).declarations.get?
  rwa [List.filterMap_cons_some (mem_ordered_iff.mp hbase), List.filterMap_cons_some (mem_ordered_iff.mp hd),
    List.filterMap_nil] at hmap

end Outline

/-! ## The outline of a document -/

/-- The declaration of a definition without its imports. -/
def Definition.declaration? (table : ScalarTable) (style : EnumStyle) (definition : Definition) :
    Option Declaration :=
  (Declaration.ofDefinition? table style definition).map Prod.fst

/-- A definition is declared under its name, and its base classes are dependencies. -/
theorem Definition.declaration?_fields {table : ScalarTable} {style : EnumStyle} {definition : Definition}
    {d : Declaration} (h : definition.declaration? table style = some d) :
    definition.declaredName? = some d.identity ∧ ∀ x ∈ d.supertypes, x ∈ d.dependencies := by
  have hmake : ∀ identity text dependencies supertypes,
      some identity = some (Declaration.make identity text dependencies supertypes).identity ∧
        ∀ x ∈ (Declaration.make identity text dependencies supertypes).supertypes,
          x ∈ (Declaration.make identity text dependencies supertypes).dependencies := by
    intro identity text dependencies supertypes
    obtain ⟨hidentity, -, hsupertypes, hdependencies⟩ :=
      Declaration.make_fields identity text dependencies supertypes
    exact ⟨congrArg some hidentity.symm, fun x hx => hdependencies x ((hsupertypes x).mp hx)⟩
  cases definition <;> cases h <;> exact hmake _ _ _ _

theorem Definition.map_identity_declaration? (table : ScalarTable) (style : EnumStyle) (definition : Definition) :
    (definition.declaration? table style).map Declaration.identity = definition.declaredName? := by
  cases h : definition.declaration? table style with
  | none => cases definition <;> first | rfl | cases h
  | some d => exact (declaration?_fields h).1.symm

namespace Document

/-- The scalars that the module of a document knows. -/
def scalarTable (doc : Document) (settings : Settings) : ScalarTable :=
  ScalarTable.ofDocument doc settings.scalars

/-- The outline of a document's module. -/
def outline (doc : Document) (settings : Settings) : Outline :=
  .ofList (doc.definitions.filterMap (Definition.declaration? (doc.scalarTable settings) settings.enumStyle))

/-- The import header of a document's module. -/
def header (doc : Document) (settings : Settings) : String :=
  (Declaration.allImports ((doc.declarations settings).map Prod.snd)).header settings.enumStyle

/-- The module of a schema is that of its merged document. -/
theorem generate_eq {settings : Settings} {text : String} {doc : Document} (h : Document.parse text = .ok doc) :
    generate settings text = .ok ((doc.merge.outline settings).moduleText (doc.merge.header settings)) := by
  have hdeclarations : (doc.merge.declarations settings).map Prod.fst = doc.merge.definitions.filterMap
      (Definition.declaration? (doc.merge.scalarTable settings) settings.enumStyle) := by
    rw [declarations, List.map_filterMap]
    rfl
  rw [generate, h, Except.map, pythonModule_eq, plainModule, outline, hdeclarations]
  rfl

theorem identities_eq (doc : Document) (settings : Settings) :
    (doc.definitions.filterMap (Definition.declaration? (doc.scalarTable settings) settings.enumStyle)).map
      Declaration.identity = doc.declaredNames := by
  rw [declaredNames, List.map_filterMap]
  congr 1
  funext definition
  exact definition.map_identity_declaration? _ _

end Document

end SchemaModels
