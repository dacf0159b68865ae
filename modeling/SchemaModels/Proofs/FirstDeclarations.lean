import SchemaModels.Proofs.Outline
import SchemaModels.Proofs.Trimming

/-! The body of an outline. It joins the texts of the first declarations under their identities, each
once. What was declared again under the same identity, and what is referred to without being declared,
leaves no trace in it. -/

namespace SchemaModels
set_option autoImplicit false

namespace Outline

/-! ## First declarations -/

/-- The identities that are declared, in order of first declaration. -/
def identities (ds : List Declaration) : List String :=
  (ds.map Declaration.identity).eraseDups

/-- The first declaration under each identity. -/
def firsts (ds : List Declaration) : List Declaration :=
  (identities ds).filterMap fun name => ds.find? fun d => d.identity == name

/-- A declaration without what it refers to apart from some names. -/
def restrict (names : List String) (d : Declaration) : Declaration :=
  { d with
    dependencies := d.dependencies.filter names.contains
    supertypes := d.supertypes.filter names.contains }

/-- The first declarations without references to what is not declared. -/
def trim (ds : List Declaration) : List Declaration :=
  (firsts ds).map (restrict (identities ds))

theorem names_foldl_add (o : Outline) (ds : List Declaration) :
    (ds.foldl add o).declarations.names = (o.declarations.names ++ ds.map Declaration.identity).eraseDups := by
  induction ds using List.reverseRecOn with
  | nil =>
    rw [List.map_nil, List.append_nil, eraseDups_of_nodup o.declarations.names_nodup]
    rfl
  | append_singleton ds d ih =>
    rw [List.foldl_append, List.foldl_cons, List.foldl_nil, add, Registry.names_offer, ih, List.map_append,
      List.map_singleton, ← List.append_assoc, eraseDups_snoc]
    simp only [List.mem_eraseDups]

theorem names_ofList (ds : List Declaration) : (ofList ds).declarations.names = identities ds :=
  names_foldl_add empty ds

theorem values_ofList (ds : List Declaration) : (ofList ds).declarations.values = firsts ds := by
  rw [← Registry.filterMap_names, names_ofList]
  exact List.filterMap_congr fun name _ => get?_ofList ds name

theorem map_identity_firsts (ds : List Declaration) : (firsts ds).map Declaration.identity = identities ds := by
  rw [← values_ofList, map_identity_values, names_ofList]

theorem identities_nodup (ds : List Declaration) : (identities ds).Nodup :=
  nodup_eraseDups _

theorem find?_of_nodup {ds : List Declaration} (h : (ds.map Declaration.identity).Nodup) {d : Declaration} (hd : d ∈ ds) :
    (ds.find? fun e => e.identity == d.identity) = some d := by
  cases hfound : ds.find? fun e => e.identity == d.identity with
  | none => exact absurd (beq_self_eq_true _) (List.find?_eq_none.mp hfound d hd)
  | some e =>
    have hsame : e.identity = d.identity := by simpa using List.find?_some hfound
    rw [List.inj_on_of_nodup_map h (List.mem_of_find?_eq_some hfound) hd hsame]

/-- Declarations under different identities are all first. -/
theorem firsts_of_nodup {ds : List Declaration} (h : (ds.map Declaration.identity).Nodup) : firsts ds = ds := by
  rw [firsts, identities, eraseDups_of_nodup h, List.filterMap_map]
  exact (List.filterMap_congr fun d hd => find?_of_nodup h hd).trans List.filterMap_some

theorem find?_firsts (ds : List Declaration) (name : String) :
    ((firsts ds).find? fun d => d.identity == name) = ds.find? fun d => d.identity == name := by
  have hnodup : ((firsts ds).map Declaration.identity).Nodup := map_identity_firsts ds ▸ identities_nodup ds
  cases hfound : ds.find? fun d => d.identity == name with
  | none =>
    rw [List.find?_eq_none] at hfound ⊢
    intro d hd
    obtain ⟨_, -, hfirst⟩ := List.mem_filterMap.mp hd
    exact hfound d (List.mem_of_find?_eq_some hfirst)
  | some d =>
    have hname : d.identity = name := by simpa using List.find?_some hfound
    have hfirst : d ∈ firsts ds := by
      refine List.mem_filterMap.mpr ⟨name, ?_, hfound⟩
      exact List.mem_eraseDups.mpr (List.mem_map.mpr ⟨d, List.mem_of_find?_eq_some hfound, hname⟩)
    have hfind := find?_of_nodup hnodup hfirst
    rwa [hname] at hfind

/-! ## Calls -/

theorem source_referenceCall (d : Declaration) (target : String) : (referenceCall d target).source = d.identity := by
  unfold referenceCall
  split <;> rfl

theorem isWithin_referenceCall (names : List String) (d : Declaration) (target : String) :
    (referenceCall d target).isWithin names = names.contains target := by
  unfold referenceCall
  split <;> rfl

theorem referenceCall_restrict {names : List String} (d : Declaration) {target : String}
    (h : names.contains target = true) : referenceCall (restrict names d) target = referenceCall d target := by
  have hsuper : (restrict names d).isSupertype target = d.isSupertype target := by
    rw [Bool.eq_iff_iff, Declaration.isSupertype, Declaration.isSupertype, List.contains_iff_mem, List.contains_iff_mem,
      restrict, List.mem_filter]
    exact and_iff_left h
  rw [referenceCall, hsuper, referenceCall]
  rfl

theorem declares_calls (ds : List Declaration) : Graph.Declares (identities ds) (ofList ds).calls := by
  refine ⟨identities_nodup ds, fun c hc => ?_, _, by rw [calls, names_ofList]⟩
  rw [calls, names_ofList, List.mem_append, List.mem_map, List.mem_flatMap] at hc
  rcases hc with ⟨name, hname, rfl⟩ | ⟨d, hd, hc⟩
  · exact hname
  · obtain ⟨target, -, rfl⟩ := List.mem_map.mp hc
    rw [source_referenceCall, ← names_ofList, ← map_identity_values]
    exact List.mem_map_of_mem hd

theorem calls_trim (ds : List Declaration) : (ofList (trim ds)).calls = Graph.trim (identities ds) (ofList ds).calls := by
  have hidentities : (trim ds).map Declaration.identity = identities ds := by
    rw [trim, List.map_map]
    exact map_identity_firsts ds
  have hnodup : ((trim ds).map Declaration.identity).Nodup := hidentities ▸ identities_nodup ds
  have hnames : identities (trim ds) = identities ds := by
    rw [identities, hidentities, eraseDups_of_nodup (identities_nodup ds)]
  have hnode : ∀ c ∈ (identities ds).map Graph.Call.node, c.isWithin (identities ds) = true := by
    intro c hc
    obtain ⟨name, -, rfl⟩ := List.mem_map.mp hc
    rfl
  rw [calls, calls, names_ofList, names_ofList, values_ofList, values_ofList, firsts_of_nodup hnodup, hnames, Graph.trim,
    List.filter_append, List.filter_eq_self.mpr hnode, List.filter_flatMap, trim, List.flatMap_map]
  congr 2
  funext d
  rw [List.filter_map]
  have hkeep : Graph.Call.isWithin (identities ds) ∘ referenceCall d = (identities ds).contains :=
    funext fun target => isWithin_referenceCall _ d target
  rw [hkeep]
  exact List.map_congr_left fun target htarget => referenceCall_restrict d (List.mem_filter.mp htarget).2

/-! ## Bodies -/

theorem get?_trim (ds : List Declaration) (name : String) :
    (ofList (trim ds)).declarations.get? name = ((ofList ds).declarations.get? name).map (restrict (identities ds)) := by
  rw [get?_ofList, get?_ofList, trim, List.find?_map, ← find?_firsts]
  rfl

theorem body_trim (ds : List Declaration) : (ofList (trim ds)).body = (ofList ds).body := by
  have horder : (ofList (trim ds)).graph.order = (ofList ds).graph.order.filter (identities ds).contains := by
    rw [graph_eq, graph_eq, calls_trim, (declares_calls ds).order_trim]
  have htexts : (ofList (trim ds)).ordered.map Declaration.text = (ofList ds).ordered.map Declaration.text := by
    rw [ordered, ordered, horder, List.filterMap_filter, List.map_filterMap, List.map_filterMap]
    refine List.filterMap_congr fun name _ => ?_
    by_cases hname : name ∈ identities ds
    · rw [if_pos (List.contains_iff_mem.mpr hname), get?_trim, Option.map_map]
      rfl
    · rw [if_neg fun hn => hname (List.contains_iff_mem.mp hn),
        (Registry.get?_eq_none_iff _ _).mpr (names_ofList ds ▸ hname)]
  rw [body, body, htexts]

/-- The body joins the texts of the first declarations, each once, and stays the same without later
declarations and without references to what is not declared. -/
theorem body_ofList (ds : List Declaration) :
    (∃ kept : List Declaration, kept.Perm (firsts ds) ∧
        (ofList ds).body = separator.intercalate (kept.map Declaration.text)) ∧
      (ofList (trim ds)).body = (ofList ds).body :=
  ⟨⟨(ofList ds).ordered, values_ofList ds ▸ (ofList ds).ordered_perm, rfl⟩, body_trim ds⟩

end Outline

end SchemaModels
