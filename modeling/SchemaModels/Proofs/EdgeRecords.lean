import SchemaModels.Proofs.Order

/-! The records of a graph's edges agree. Whatever calls build a graph, names keep the numbers that they were first
given, outgoing and strict edges are what the calls linked, without repeats, and the count of incoming edges is the
number of nodes that lead to a node. Calls determine a graph by what they mention and link, so a call made again
changes nothing. -/

namespace SchemaModels
set_option autoImplicit false

/-- A registry is told by its names and what is under them. -/
theorem Registry.eq_of_get? {α : Type} {r other : Registry α} (hnames : r.names = other.names)
    (hget : ∀ name ∈ r.names, r.get? name = other.get? name) : r = other := by
  have hvalues : r.values = other.values := by
    rw [← r.filterMap_names, ← other.filterMap_names, ← hnames]
    exact List.filterMap_congr hget
  have hrows : ∀ r : Registry α, r.rows = r.names.zip r.values := fun r => List.zip_of_prod rfl rfl
  have hsame : r.rows = other.rows := by
    rw [hrows r, hrows other, hnames, hvalues]
  cases r
  cases other
  cases hsame
  rfl

namespace Graph

/-! ## Calls made again -/

theorem mentioned_append (before after : List Call) : mentioned before <+: mentioned (before ++ after) := by
  rw [mentioned, mentioned, List.flatMap_append, List.eraseDups_append]
  exact List.prefix_append _ _

theorem eraseDups_again {xs ys : List String} (h : ∀ y ∈ ys, y ∈ xs) : (xs ++ ys).eraseDups = xs.eraseDups := by
  have hnone : ys.removeAll xs = [] := by
    rw [List.removeAll, List.filter_eq_nil_iff]
    intro y hy
    simp [h y hy]
  rw [List.eraseDups_append, hnone, List.eraseDups_nil, List.append_nil]

theorem eraseDups_filterMap_again (f : Call → Option String) {calls : List Call} {c : Call} (h : c ∈ calls) :
    ((calls ++ [c]).filterMap f).eraseDups = (calls.filterMap f).eraseDups := by
  rw [List.filterMap_append]
  refine eraseDups_again fun target ht => ?_
  obtain ⟨c', hc', htarget⟩ := List.mem_filterMap.mp ht
  cases List.mem_singleton.mp hc'
  exact List.mem_filterMap.mpr ⟨c, h, htarget⟩

namespace Represents

variable {calls : List Call} {g : Graph}

theorem unique {other : Graph} (h : Represents calls g) (h' : Represents calls other) : g = other := by
  have hnames : g.nodes.names = other.nodes.names := h.names.trans h'.names.symm
  -- edges are recorded by number, so the numbers have to agree before them
  have hindex : g.index = other.index := by
    funext name
    rw [index, index, Registry.index, Registry.index, hnames]
  have hedges : ∀ name, g.edgesOf name = other.edgesOf name := by
    intro name
    have hout := (h.outgoing name).trans (hindex ▸ (h'.outgoing name).symm)
    have hstrict := (h.strict name).trans (hindex ▸ (h'.strict name).symm)
    have hin := (h.incoming name).trans (h'.incoming name).symm
    cases hg : g.edgesOf name
    cases ho : other.edgesOf name
    rw [hg, ho] at hout hstrict hin
    cases hout
    cases hstrict
    cases hin
    rfl
  have hnodes : g.nodes = other.nodes := by
    refine Registry.eq_of_get? hnames fun name hname => ?_
    obtain ⟨e, he⟩ := g.nodes.mem_names_iff.mp hname
    obtain ⟨e', he'⟩ := other.nodes.mem_names_iff.mp (hnames ▸ hname)
    have hsame := hedges name
    rw [edgesOf, edgesOf, he, he'] at hsame
    rw [he, he']
    exact congrArg some hsame
  cases g
  cases other
  cases hnodes
  rfl

theorem call (h : Represents calls g) (c : Call) : Represents (calls ++ [c]) (g.call c) := by
  cases c with
  | node name => exact h.node name
  | dependency source target => exact h.dependency source target
  | supertype source target => exact h.supertype source target

theorem call_again (h : Represents calls g) {c : Call} (hc : c ∈ calls) : g.call c = g := by
  have hnames : mentioned (calls ++ [c]) = mentioned calls := by
    rw [mentioned, List.flatMap_append, List.flatMap_singleton]
    exact eraseDups_again fun name hname => List.mem_flatMap.mpr ⟨c, hc, hname⟩
  have htargets : targets (calls ++ [c]) = targets calls :=
    funext fun source => eraseDups_filterMap_again (Call.target? source) hc
  have hstrict : strictTargets (calls ++ [c]) = strictTargets calls :=
    funext fun source => eraseDups_filterMap_again (Call.strictTarget? source) hc
  have hnext := h.call c
  have hsame : Represents calls (g.call c) :=
    { names := hnames ▸ hnext.names
      outgoing := htargets ▸ hnext.outgoing
      strict := hstrict ▸ hnext.strict
      incoming := fun target => by rw [hnext.incoming, linkCount, linkCount, hnames, htargets] }
  exact hsame.unique h

/-! ## What a node records -/

theorem nodup_map_index (names : List String) (hnodup : names.Nodup) (hmem : ∀ name ∈ names, name ∈ g.nodes.names) :
    (names.map g.index).Nodup :=
  hnodup.map_on fun name hname _ _ he => (g.nodes.index_inj (hmem name hname)).mp he

theorem incoming_eq (h : Represents calls g) {name : String} (hname : name ∈ g.nodes.names) :
    (g.edgesOf name).incoming =
      g.nodes.names.countP fun source => (g.edgesOf source).outgoing.contains (g.index name) := by
  rw [h.incoming, linkCount, ← h.names]
  refine List.countP_congr fun source _ => ?_
  rw [List.contains_iff_mem, List.contains_iff_mem, h.outgoing, index_mem_map hname]

end Represents

/-- After any calls: names are distinct and keep their numbers, edges are in range, without repeats and as linked,
the strict ones among them as linked strictly, incoming edges are counted, and no call made again changes a thing. -/
theorem edges_ofCalls (calls : List Call) :
    let g := ofCalls calls
    (g.nodes.names.Nodup ∧ (∀ name, name ∈ g.nodes.names ↔ ∃ c ∈ calls, name ∈ c.names) ∧
      ∀ before after, calls = before ++ after → ∀ name ∈ (ofCalls before).nodes.names,
        g.index name = (ofCalls before).index name) ∧
    (∀ name ∈ g.nodes.names,
      ((g.edgesOf name).outgoing.Nodup ∧ (∀ target ∈ (g.edgesOf name).outgoing, target < g.size) ∧
        (g.edgesOf name).outgoing.map g.name = targets calls name ∧
        ∀ target, target ∈ (g.edgesOf name).outgoing.map g.name ↔ Linked calls name target) ∧
      ((g.edgesOf name).strict.Nodup ∧ (g.edgesOf name).strict ⊆ (g.edgesOf name).outgoing ∧
        ∀ target, target ∈ (g.edgesOf name).strict.map g.name ↔ Call.supertype name target ∈ calls) ∧
      (g.edgesOf name).incoming =
        g.nodes.names.countP fun source => (g.edgesOf source).outgoing.contains (g.index name)) ∧
    ∀ c ∈ calls, g.call c = g := by
  intro g
  have h : Represents calls g := ofCalls_represents calls
  refine ⟨⟨g.nodes.names_nodup, fun name => ?_, ?_⟩, fun name hname => ⟨?_, ?_, h.incoming_eq hname⟩,
    fun c => h.call_again⟩
  · rw [h.names, mem_mentioned]
  · rintro before after hcalls name hname
    have hbefore := (ofCalls_represents before).names
    -- later calls only add names behind those that are there
    obtain ⟨more, hmore⟩ := mentioned_append before after
    rw [index, index, Registry.index, Registry.index, h.names, hcalls, ← hmore, ← hbefore]
    exact List.idxOf_append_of_mem hname
  · have htargets : ∀ target ∈ targets calls name, target ∈ g.nodes.names := fun _ => h.target_mem
    rw [h.outgoing, g.map_name_map_index htargets]
    refine ⟨Represents.nodup_map_index _ (nodup_eraseDups _) htargets, ?_, rfl, fun target => mem_targets⟩
    intro number hnumber
    obtain ⟨target, htarget, rfl⟩ := List.mem_map.mp hnumber
    have hplace := List.idxOf_lt_length_of_mem (htargets target htarget)
    rwa [Registry.names, List.length_map] at hplace
  · have htargets : ∀ target ∈ strictTargets calls name, target ∈ g.nodes.names := fun _ => h.strictTarget_mem
    rw [h.strict, h.outgoing, g.map_name_map_index htargets]
    refine ⟨Represents.nodup_map_index _ (nodup_eraseDups _) htargets, ?_, fun target => mem_strictTargets⟩
    exact List.map_subset _ fun target ht => mem_targets.mpr (Or.inr (mem_strictTargets.mp ht))

/-- A loop, and a strict edge between nodes that were linked before: the loop counts once. -/
theorem edges_ofCalls_loop :
    let calls := [Call.node "B", .dependency "A" "A", .dependency "A" "B", .supertype "A" "B"]
    let g := ofCalls calls
    g.edgesOf "A" = { outgoing := [1, 0], strict := [0], incoming := 1 } ∧
    (∀ target, target ∈ (g.edgesOf "A").strict.map g.name ↔ Call.supertype "A" target ∈ calls) ∧
    (g.edgesOf "A").incoming = g.nodes.names.countP (fun source => (g.edgesOf source).outgoing.contains (g.index "A")) ∧
    g.index "B" = (ofCalls [.node "B"]).index "B" ∧ g.call (.dependency "A" "A") = g := by
  intro calls g
  obtain ⟨⟨-, -, hindex⟩, hedges, hagain⟩ := edges_ofCalls calls
  obtain ⟨-, ⟨-, -, hstrict⟩, hincoming⟩ := hedges "A" (by decide)
  exact ⟨by decide, hstrict, hincoming, hindex [.node "B"] _ rfl "B" (by decide), hagain _ (by decide)⟩

end Graph

end SchemaModels
