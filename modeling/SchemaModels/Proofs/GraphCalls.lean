import Mathlib.Data.List.Induction
import Mathlib.Data.List.Nodup
import Mathlib.Tactic.SplitIfs
import SchemaModels.Graph
import SchemaModels.Proofs.Registry

/-! Graphs as sequences of calls. A graph is built by adding nodes, edges and strict edges one after
another; `Represents` says what such a sequence leaves behind: every name that was mentioned, in order
of first mention, and for each node the targets that were linked to it, in order of first link, and the
number of nodes that it was linked to. -/

namespace SchemaModels.Graph
set_option autoImplicit false

/-! ## Calls -/

/-- One step of building a graph. -/
inductive Call where
  | node (name : String)
  | dependency (source target : String)
  | supertype (source target : String)
deriving DecidableEq, Repr

namespace Call

/-- The names that a call mentions, in the order in which it adds them. -/
def names : Call → List String
  | node name => [name]
  | dependency source target => [source, target]
  | supertype source target => [source, target]

/-- The target that a call links to a source, if it does. -/
def target? (source : String) : Call → Option String
  | node _ => none
  | dependency s target => if s = source then some target else none
  | supertype s target => if s = source then some target else none

/-- The target that a call links strictly to a source, if it does. -/
def strictTarget? (source : String) : Call → Option String
  | supertype s target => if s = source then some target else none
  | _ => none

end Call

/-- A graph after one more call. -/
def call (g : Graph) : Call → Graph
  | .node name => g.addNode name
  | .dependency source target => g.addDependency source target
  | .supertype source target => g.addSupertype source target

/-- The graph that a sequence of calls builds. -/
def ofCalls (calls : List Call) : Graph :=
  calls.foldl call empty

/-- The names that calls mention, in order of first mention. -/
def mentioned (calls : List Call) : List String :=
  (calls.flatMap Call.names).eraseDups

/-- The targets that calls link to a source, in order of first link. -/
def targets (calls : List Call) (source : String) : List String :=
  (calls.filterMap (Call.target? source)).eraseDups

/-- The targets that calls link strictly to a source, in order of first link. -/
def strictTargets (calls : List Call) (source : String) : List String :=
  (calls.filterMap (Call.strictTarget? source)).eraseDups

/-- One more call adds the name that it contributes, unless that is there. -/
theorem eraseDups_filterMap_snoc (f : Call → Option String) (calls : List Call) (c : Call) :
    ((calls ++ [c]).filterMap f).eraseDups =
      match f c with
      | none => (calls.filterMap f).eraseDups
      | some t =>
        if t ∈ (calls.filterMap f).eraseDups then (calls.filterMap f).eraseDups
        else (calls.filterMap f).eraseDups ++ [t] := by
  rw [List.filterMap_append]
  cases h : f c with
  | none => simp [h]
  | some t =>
    rw [List.filterMap_cons_some h, List.filterMap_nil, eraseDups_snoc]
    simp only [List.mem_eraseDups]

theorem mem_mentioned {calls : List Call} {name : String} :
    name ∈ mentioned calls ↔ ∃ c ∈ calls, name ∈ c.names := by
  simp [mentioned, List.mem_eraseDups]

theorem mem_mentioned_snoc {calls : List Call} {c : Call} {name : String} (h : name ∈ c.names) :
    name ∈ mentioned (calls ++ [c]) :=
  mem_mentioned.mpr ⟨c, List.mem_append_right _ List.mem_cons_self, h⟩

theorem mentioned_node (calls : List Call) (name : String) : mentioned (calls ++ [.node name]) =
    if name ∈ mentioned calls then mentioned calls else mentioned calls ++ [name] := by
  rw [mentioned, List.flatMap_append, List.flatMap_singleton, Call.names, eraseDups_snoc, mentioned]
  simp only [List.mem_eraseDups]

theorem mem_targets {calls : List Call} {source target : String} :
    target ∈ targets calls source ↔
      Call.dependency source target ∈ calls ∨ Call.supertype source target ∈ calls := by
  rw [targets, List.mem_eraseDups, List.mem_filterMap]
  constructor
  · rintro ⟨c, hc, h⟩
    cases c with
    | node name => cases h
    | dependency s t =>
      obtain ⟨rfl, rfl⟩ : s = source ∧ t = target := by simpa [Call.target?] using h
      exact Or.inl hc
    | supertype s t =>
      obtain ⟨rfl, rfl⟩ : s = source ∧ t = target := by simpa [Call.target?] using h
      exact Or.inr hc
  · rintro (h | h)
    · exact ⟨_, h, by simp [Call.target?]⟩
    · exact ⟨_, h, by simp [Call.target?]⟩

theorem mem_strictTargets {calls : List Call} {source target : String} :
    target ∈ strictTargets calls source ↔ Call.supertype source target ∈ calls := by
  rw [strictTargets, List.mem_eraseDups, List.mem_filterMap]
  constructor
  · rintro ⟨c, hc, h⟩
    cases c with
    | node name => cases h
    | dependency s t => cases h
    | supertype s t =>
      obtain ⟨rfl, rfl⟩ : s = source ∧ t = target := by simpa [Call.strictTarget?] using h
      exact hc
  · intro h
    exact ⟨_, h, by simp [Call.strictTarget?]⟩

theorem mem_mentioned_of_mem_targets {calls : List Call} {source target : String}
    (h : target ∈ targets calls source) : source ∈ mentioned calls ∧ target ∈ mentioned calls := by
  rw [mem_mentioned, mem_mentioned]
  rcases mem_targets.mp h with hc | hc
  · exact ⟨⟨_, hc, by simp [Call.names]⟩, ⟨_, hc, by simp [Call.names]⟩⟩
  · exact ⟨⟨_, hc, by simp [Call.names]⟩, ⟨_, hc, by simp [Call.names]⟩⟩

theorem targets_node (calls : List Call) (name source : String) :
    targets (calls ++ [.node name]) source = targets calls source :=
  eraseDups_filterMap_snoc (Call.target? source) calls (.node name)

theorem targets_dependency (calls : List Call) (source target : String) :
    targets (calls ++ [.dependency source target]) source =
      if target ∈ targets calls source then targets calls source else targets calls source ++ [target] := by
  have heq := eraseDups_filterMap_snoc (Call.target? source) calls (.dependency source target)
  rwa [Call.target?, if_pos rfl] at heq

theorem targets_dependency_of_ne (calls : List Call) {source other : String} (target : String) (h : other ≠ source) :
    targets (calls ++ [.dependency source target]) other = targets calls other := by
  have heq := eraseDups_filterMap_snoc (Call.target? other) calls (.dependency source target)
  rwa [Call.target?, if_neg fun e => h e.symm] at heq

theorem targets_eq_nil {calls : List Call} {source : String} (h : source ∉ mentioned calls) :
    targets calls source = [] :=
  List.eq_nil_iff_forall_not_mem.mpr fun _ ht => h (mem_mentioned_of_mem_targets ht).1

/-- How many of the names that calls mention they link to a target. -/
def linkCount (calls : List Call) (target : String) : Nat :=
  (mentioned calls).countP fun source => (targets calls source).contains target

theorem linkCount_node (calls : List Call) (name target : String) :
    linkCount (calls ++ [.node name]) target = linkCount calls target := by
  simp only [linkCount, targets_node]
  rw [mentioned_node]
  by_cases hname : name ∈ mentioned calls
  · rw [if_pos hname]
  · rw [if_neg hname, List.countP_append, List.countP_singleton, targets_eq_nil hname]
    rfl

/-- One more link, to a new target of one source, counts once and at that target only. -/
theorem countP_link {names : List String} (hnodup : names.Nodup) {source : String} (hsource : source ∈ names)
    {old new : String → List String} {target : String} (hold : target ∉ old source)
    (hnew : new source = old source ++ [target]) (hother : ∀ name, name ≠ source → new name = old name) (other : String) :
    (names.countP fun name => (new name).contains other) =
      (names.countP fun name => (old name).contains other) + if other = target then 1 else 0 := by
  obtain ⟨before, after, rfl⟩ := List.append_of_mem hsource
  have hapart : ∀ name ∈ before ++ after, (new name).contains other = (old name).contains other := by
    intro name hname
    rw [hother]
    rintro rfl
    exact (List.nodup_cons.mp (List.nodup_middle.mp hnodup)).1 hname
  have hsame : ∀ part : List String, (∀ name ∈ part, name ∈ before ++ after) →
      (part.countP fun name => (new name).contains other) = part.countP fun name => (old name).contains other :=
    fun part hpart => List.countP_congr fun name hname => by rw [hapart name (hpart name hname)]
  rw [List.countP_append, List.countP_append, List.countP_cons, List.countP_cons,
    hsame before fun _ => List.mem_append_left _, hsame after fun _ => List.mem_append_right _, hnew]
  by_cases he : other = target
  · simp [he, hold, Nat.add_assoc]
  · simp [he]

theorem linkCount_dependency (calls : List Call) (source target other : String) :
    linkCount (calls ++ [.dependency source target]) other =
      if target ∈ targets calls source then linkCount calls other
      else linkCount calls other + if other = target then 1 else 0 := by
  have hnames : mentioned (calls ++ [.node source] ++ [.node target]) =
      mentioned (calls ++ [.dependency source target]) := by
    simp [mentioned, Call.names]
  -- both ends may be new names, which count nothing as long as they are not linked
  have hold : linkCount calls other =
      (mentioned (calls ++ [.dependency source target])).countP fun name => (targets calls name).contains other := by
    rw [← linkCount_node calls source, ← linkCount_node _ target, ← hnames]
    simp only [linkCount, targets_node]
  have hapart : ∀ name, name ≠ source → targets (calls ++ [.dependency source target]) name = targets calls name :=
    fun name => targets_dependency_of_ne calls target
  by_cases hmem : target ∈ targets calls source
  · have hsame : targets (calls ++ [.dependency source target]) = targets calls := by
      funext name
      by_cases hname : name = source
      · rw [hname, targets_dependency, if_pos hmem]
      · exact hapart name hname
    rw [if_pos hmem, hold, linkCount, hsame]
  · rw [if_neg hmem, hold, linkCount]
    refine countP_link (nodup_eraseDups _) (mem_mentioned_snoc (by simp [Call.names])) hmem ?_ hapart other
    rw [targets_dependency, if_neg hmem]

/-! ## Operations on nodes by name -/

/-- The edges of a node by name; a node that is not there has none. -/
def edgesOf (g : Graph) (name : String) : Edges :=
  (g.nodes.get? name).getD {}

theorem names_addNode (g : Graph) (name : String) :
    (g.addNode name).nodes.names =
      if name ∈ g.nodes.names then g.nodes.names else g.nodes.names ++ [name] :=
  g.nodes.names_offer name {}

theorem edgesOf_addNode (g : Graph) (name other : String) :
    (g.addNode name).edgesOf other = g.edgesOf other := by
  simp only [edgesOf, addNode, Registry.get?_offer]
  split
  · next h => rw [h, Option.getD_some]
  · rfl

theorem index_addNode (g : Graph) (name : String) {other : String} (h : other ∈ g.nodes.names) :
    (g.addNode name).index other = g.index other :=
  g.nodes.index_offer name {} h

theorem edgesOf_modify (g : Graph) {name : String} (h : name ∈ g.nodes.names) (f : Edges → Edges)
    (other : String) :
    edgesOf ⟨g.nodes.modify name f⟩ other = if other = name then f (g.edgesOf other) else g.edgesOf other := by
  simp only [edgesOf, Registry.get?_modify]
  split
  · next ho =>
    obtain ⟨e, he⟩ := g.nodes.mem_names_iff.mp (ho ▸ h)
    rw [he, Option.map_some, Option.getD_some, Option.getD_some]
  · rfl

theorem names_connect (g : Graph) (source target : String) :
    (g.connect source target).nodes.names = g.nodes.names := by
  unfold connect
  split
  · rfl
  · rw [Registry.names_modify, Registry.names_modify]

/-- Connecting two nodes that are not connected adds one edge and counts it at its target. -/
theorem edgesOf_connect (g : Graph) {source target : String} (hs : source ∈ g.nodes.names)
    (ht : target ∈ g.nodes.names) (other : String) :
    (g.connect source target).edgesOf other =
      if g.index target ∈ (g.edgesOf source).outgoing then g.edgesOf other
      else
        { outgoing := (g.edgesOf other).outgoing ++ if other = source then [g.index target] else []
          strict := (g.edgesOf other).strict
          incoming := (g.edgesOf other).incoming + if other = target then 1 else 0 } := by
  unfold connect
  by_cases h : g.index target ∈ (g.edgesOf source).outgoing
  · have hc : g.isConnected source target = true := List.contains_iff_mem.mpr h
    rw [if_pos hc, if_pos h]
  · have hc : ¬ g.isConnected source target = true := fun hn => h (List.contains_iff_mem.mp hn)
    have ht' : target ∈ (g.nodes.modify source fun e =>
        { e with outgoing := e.outgoing ++ [g.index target] }).names := by
      rw [Registry.names_modify]
      exact ht
    rw [if_neg hc, if_neg h]
    dsimp only
    rw [edgesOf_modify ⟨g.nodes.modify source _⟩ ht', edgesOf_modify g hs]
    split_ifs <;> simp

theorem strict_connect (g : Graph) {source target : String} (hs : source ∈ g.nodes.names)
    (ht : target ∈ g.nodes.names) (other : String) :
    ((g.connect source target).edgesOf other).strict = (g.edgesOf other).strict := by
  rw [edgesOf_connect g hs ht]
  split <;> rfl

/-! ## What calls leave behind -/

/-- A graph holds what a sequence of calls mentioned and linked, and nothing else. -/
structure Represents (calls : List Call) (g : Graph) : Prop where
  names : g.nodes.names = mentioned calls
  outgoing : ∀ source, (g.edgesOf source).outgoing = (targets calls source).map g.index
  strict : ∀ source, (g.edgesOf source).strict = (strictTargets calls source).map g.index
  incoming : ∀ target, (g.edgesOf target).incoming = linkCount calls target

theorem index_mem_map {g : Graph} {name : String} (h : name ∈ g.nodes.names) (ts : List String) :
    g.index name ∈ ts.map g.index ↔ name ∈ ts := by
  rw [List.mem_map]
  constructor
  · rintro ⟨t, ht, he⟩
    exact (g.nodes.index_inj h).mp he.symm ▸ ht
  · exact fun hmem => ⟨name, hmem, rfl⟩

/-- Adding the number of a node unless it is there adds its name unless that is there. -/
theorem map_index_add {g : Graph} {name : String} (h : name ∈ g.nodes.names) (ts : List String) :
    (if g.index name ∈ ts.map g.index then ts.map g.index else ts.map g.index ++ [g.index name]) =
      (if name ∈ ts then ts else ts ++ [name]).map g.index := by
  by_cases hmem : name ∈ ts
  · rw [if_pos ((index_mem_map h ts).mpr hmem), if_pos hmem]
  · rw [if_neg fun hn => hmem ((index_mem_map h ts).mp hn), if_neg hmem, List.map_append, List.map_singleton]

namespace Represents

variable {calls : List Call} {g : Graph}

theorem empty : Represents [] empty :=
  ⟨rfl, fun _ => rfl, fun _ => rfl, fun _ => rfl⟩

theorem target_mem (h : Represents calls g) {source target : String}
    (ht : target ∈ targets calls source) : target ∈ g.nodes.names :=
  h.names ▸ (mem_mentioned_of_mem_targets ht).2

theorem strictTarget_mem (h : Represents calls g) {source target : String}
    (ht : target ∈ strictTargets calls source) : target ∈ g.nodes.names :=
  h.target_mem (mem_targets.mpr (Or.inr (mem_strictTargets.mp ht)))

theorem node (h : Represents calls g) (name : String) :
    Represents (calls ++ [.node name]) (g.addNode name) where
  names := by rw [names_addNode, h.names, mentioned_node]
  outgoing source := by
    rw [edgesOf_addNode, h.outgoing, targets_node]
    exact List.map_congr_left fun t ht => (g.index_addNode name (h.target_mem ht)).symm
  strict source := by
    have ht : strictTargets (calls ++ [.node name]) source = strictTargets calls source :=
      eraseDups_filterMap_snoc (Call.strictTarget? source) calls (.node name)
    rw [edgesOf_addNode, h.strict, ht]
    exact List.map_congr_left fun t ht => (g.index_addNode name (h.strictTarget_mem ht)).symm
  incoming target := by rw [edgesOf_addNode, h.incoming, linkCount_node]

theorem dependency (h : Represents calls g) (source target : String) :
    Represents (calls ++ [.dependency source target]) (g.addDependency source target) := by
  -- both ends are nodes before they are connected
  have h2 := (h.node source).node target
  set g2 := (g.addNode source).addNode target with hg2
  have hnames : g2.nodes.names = mentioned (calls ++ [.dependency source target]) := by
    rw [h2.names]
    simp [mentioned, Call.names]
  have hs : source ∈ g2.nodes.names := hnames ▸ mem_mentioned_snoc (by simp [Call.names])
  have ht : target ∈ g2.nodes.names := hnames ▸ mem_mentioned_snoc (by simp [Call.names])
  have hindex : (g.addDependency source target).index = g2.index := by
    funext name
    simp only [index, Registry.index, addDependency, ← hg2, names_connect]
  have hlinks : ∀ other, targets (calls ++ [.node source] ++ [.node target]) other = targets calls other := by
    intro other
    rw [targets_node, targets_node]
  have hstrict : ∀ other, strictTargets (calls ++ [.node source] ++ [.node target]) other =
      strictTargets (calls ++ [.dependency source target]) other := by
    intro other
    simp [strictTargets, Call.strictTarget?, List.filterMap_cons]
  refine ⟨?_, fun other => ?_, fun other => ?_, fun other => ?_⟩
  · rw [addDependency, names_connect, ← hg2, hnames]
  · rw [hindex, addDependency, ← hg2, edgesOf_connect g2 hs ht]
    by_cases ho : other = source
    · subst ho
      rw [targets_dependency, ← map_index_add ht, ← hlinks other, ← h2.outgoing other]
      split
      · rfl
      · rw [if_pos rfl]
    · rw [targets_dependency_of_ne calls target ho, ← hlinks other, ← h2.outgoing other]
      split
      · rfl
      · exact List.append_nil _
  · rw [hindex, addDependency, ← hg2, strict_connect g2 hs ht, h2.strict, hstrict]
  · have hconnected : g2.index target ∈ (g2.edgesOf source).outgoing ↔ target ∈ targets calls source := by
      rw [h2.outgoing, hlinks]
      exact index_mem_map ht _
    have hincoming : (g2.edgesOf other).incoming = linkCount calls other := by
      rw [h2.incoming, linkCount_node, linkCount_node]
    rw [addDependency, ← hg2, edgesOf_connect g2 hs ht, linkCount_dependency, ← hincoming]
    simp only [hconnected]
    split <;> rfl

theorem supertype (h : Represents calls g) (source target : String) :
    Represents (calls ++ [.supertype source target]) (g.addSupertype source target) := by
  have h1 := h.dependency source target
  set g1 := g.addDependency source target with hg1
  have hnames : g1.nodes.names = mentioned (calls ++ [.supertype source target]) := by
    rw [h1.names]
    simp [mentioned, Call.names]
  have hs : source ∈ g1.nodes.names := hnames ▸ mem_mentioned_snoc (by simp [Call.names])
  have ht : target ∈ g1.nodes.names := hnames ▸ mem_mentioned_snoc (by simp [Call.names])
  have hindex : (g.addSupertype source target).index = g1.index := by
    funext name
    simp only [index, Registry.index, addSupertype, ← hg1, Registry.names_modify]
  have hedges : ∀ other, (g.addSupertype source target).edgesOf other =
      if other = source then
        if g1.index target ∈ (g1.edgesOf other).strict then g1.edgesOf other
        else { g1.edgesOf other with strict := (g1.edgesOf other).strict ++ [g1.index target] }
      else g1.edgesOf other := by
    intro other
    rw [addSupertype, ← hg1]
    dsimp only
    rw [edgesOf_modify g1 hs]
    simp only [List.contains_iff_mem]
  have htargets : targets (calls ++ [.supertype source target]) = targets (calls ++ [.dependency source target]) := by
    funext other
    simp [targets, Call.target?, List.filterMap_cons]
  refine ⟨?_, fun other => ?_, fun other => ?_, fun other => ?_⟩
  · rw [addSupertype, ← hg1]
    dsimp only
    rw [Registry.names_modify, hnames]
  · have hout : ((g.addSupertype source target).edgesOf other).outgoing = (g1.edgesOf other).outgoing := by
      rw [hedges other]
      split
      · split <;> rfl
      · rfl
    rw [hout, hindex, h1.outgoing other, htargets]
  · rw [hindex, hedges other]
    have hlinks : strictTargets (calls ++ [.dependency source target]) other = strictTargets calls other :=
      eraseDups_filterMap_snoc (Call.strictTarget? other) calls (.dependency source target)
    have hsnoc := eraseDups_filterMap_snoc (Call.strictTarget? other) calls (.supertype source target)
    by_cases ho : source = other
    · subst ho
      rw [Call.strictTarget?, if_pos rfl] at hsnoc
      change strictTargets _ _ = if target ∈ strictTargets calls source then strictTargets calls source
        else strictTargets calls source ++ [target] at hsnoc
      rw [hsnoc, ← map_index_add ht, ← hlinks, ← h1.strict source, if_pos rfl]
      split <;> rfl
    · rw [Call.strictTarget?, if_neg ho] at hsnoc
      change strictTargets _ _ = strictTargets calls other at hsnoc
      rw [hsnoc, if_neg fun e => ho e.symm, h1.strict other, hlinks]
  · have hin : ((g.addSupertype source target).edgesOf other).incoming = (g1.edgesOf other).incoming := by
      rw [hedges other]
      split
      · split <;> rfl
      · rfl
    rw [hin, h1.incoming, linkCount, linkCount, htargets, ← h1.names, hnames]

end Represents

/-- The graph of a sequence of calls holds what they mentioned and linked. -/
theorem ofCalls_represents (calls : List Call) : Represents calls (ofCalls calls) := by
  induction calls using List.reverseRecOn with
  | nil => exact Represents.empty
  | append_singleton calls c ih =>
    rw [ofCalls, List.foldl_append]
    cases c with
    | node name => exact ih.node name
    | dependency source target => exact ih.dependency source target
    | supertype source target => exact ih.supertype source target

end SchemaModels.Graph
