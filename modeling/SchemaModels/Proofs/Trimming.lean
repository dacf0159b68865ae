import Mathlib.Data.List.Find
import SchemaModels.Proofs.PostOrder

/-! Nodes that lead nowhere do not matter for the order of the others. If they and the edges to them are
taken away, a walk finishes the remaining nodes in the same order, the same of them lie on circles
together and the same are leaders, so that the order is the old one without the nodes taken away. -/

namespace SchemaModels
set_option autoImplicit false

open Relation

/-! ## Walks -/

/-- A walk that keeps clear of nodes which lead nowhere only leaves them out. -/
theorem Visits.filter {α : Type} {next trimmed : α → List α} {p : α → Bool}
    (hnext : ∀ a, p a = true → trimmed a = (next a).filter p) (hsink : ∀ a, ¬ p a = true → next a = [])
    {seen nodes row : List α} (h : Visits next seen nodes row) :
    Visits trimmed (seen.filter p) (nodes.filter p) (row.filter p) := by
  induction h with
  | done => exact .done _
  | @pass seen node nodes row hmem _ ih =>
    by_cases hp : p node = true
    · rw [List.filter_cons_of_pos hp]
      exact .pass (List.mem_filter.mpr ⟨hmem, hp⟩) ih
    · rwa [List.filter_cons_of_neg hp]
  | @enter seen node nodes below row hmem inner _ ihInner ihRest =>
    by_cases hp : p node = true
    · rw [List.filter_cons_of_pos hp, ← hnext node hp] at ihInner
      rw [List.filter_append, List.filter_cons_of_pos hp] at ihRest ⊢
      rw [List.filter_cons_of_pos hp]
      exact .enter (fun hn => hmem (List.mem_filter.mp hn).1) ihInner ihRest
    · -- nothing is below the node, so neither it nor anything else is finished here
      rw [hsink node hp] at inner
      cases inner
      rw [List.nil_append, List.filter_cons_of_neg hp] at ihRest ⊢
      rwa [List.filter_cons_of_neg hp]

/-! ## Arranging -/

/-- Only strict edges between the waiting nodes matter. -/
theorem arrange_congr {strict other : Nat → List Nat} {waiting : List Nat}
    (h : ∀ source ∈ waiting, ∀ target ∈ waiting, target ∈ strict source ↔ target ∈ other source) :
    arrange strict waiting = arrange other waiting := by
  fun_induction arrange strict waiting with
  | case1 => rw [arrange]
  | case2 node rest chosen ih =>
    have hready : ∀ source ∈ node :: rest,
        isReady strict (node :: rest) source = isReady other (node :: rest) source := by
      intro source hsource
      rw [Bool.eq_iff_iff, isReady_iff, isReady_iff]
      refine forall_congr' fun target => forall_congr' fun htarget => not_congr ?_
      rw [Awaits, Awaits, h source hsource target htarget]
    have hchosen : chosen = ((node :: rest).find? (isReady other (node :: rest))).getD node := by
      simp only [chosen, List.find?_congr hready]
    rw [arrange, ← hchosen, ih fun source hs target ht =>
      h source (List.mem_of_mem_erase hs) target (List.mem_of_mem_erase ht)]

/-! ## Tables -/

namespace Edges

/-- A table is another one without its last nodes, which lead nowhere, and without the edges to them. -/
structure Trims (table trimmed : Array Edges) : Prop where
  size_le : trimmed.size ≤ table.size
  next : ∀ a < trimmed.size, next trimmed a = (next table a).filter (· < trimmed.size)
  strict : ∀ a < trimmed.size, ∀ b < trimmed.size, b ∈ strictNext trimmed a ↔ b ∈ strictNext table a
  incoming : ∀ a < trimmed.size, (trimmed[a]?.getD {}).incoming = (table[a]?.getD {}).incoming
  sink : ∀ a, ¬ a < trimmed.size → Edges.next table a = []

theorem range_filter_lt {n m : Nat} (h : n ≤ m) : (List.range m).filter (· < n) = List.range n := by
  obtain ⟨k, rfl⟩ := Nat.exists_eq_add_of_le h
  rw [List.range_add, List.filter_append, List.filter_eq_self.mpr, List.filter_eq_nil_iff.mpr, List.append_nil]
  · simp
  · simp

theorem filter_lt_cons (n node : Nat) (row : List Nat) : (node :: row).filter (· < n) =
    if node < n then node :: row.filter (· < n) else row.filter (· < n) := by
  simp [List.filter_cons]

namespace Trims

variable {table trimmed : Array Edges}

theorem starts (h : Trims table trimmed) : (starts table).filter (· < trimmed.size) = Edges.starts trimmed := by
  rw [Edges.starts, Edges.starts, List.filter_append, range_filter_lt h.size_le, List.filter_filter,
    ← range_filter_lt h.size_le, List.filter_filter, range_filter_lt h.size_le]
  congr 1
  refine List.filter_congr fun a _ => ?_
  by_cases ha : a < trimmed.size
  · rw [h.incoming a ha, Bool.and_comm]
  · simp [ha]

theorem inside (h : Trims table trimmed) : Inside trimmed := by
  intro a b hb
  by_cases ha : a < trimmed.size
  · rw [h.next a ha] at hb
    exact of_decide_eq_true (List.mem_filter.mp hb).2
  · simp [Edges.next, Array.getElem?_eq_none (Nat.le_of_not_lt ha)] at hb

theorem postOrder (h : Trims table trimmed) (hinside : Inside table) :
    (postOrder table).filter (· < trimmed.size) = Edges.postOrder trimmed := by
  have hwalk : Visits (Edges.next trimmed) (([] : List Nat).filter (· < trimmed.size))
      ((Edges.starts table).filter (· < trimmed.size)) ((Edges.postOrder table).filter (· < trimmed.size)) :=
    (postOrder_visits hinside).filter (fun a ha => h.next a (of_decide_eq_true ha))
      fun a ha => h.sink a (by simpa using ha)
  rw [List.filter_nil, h.starts] at hwalk
  exact hwalk.unique (postOrder_visits h.inside)

theorem below_of_step (h : Trims table trimmed) {a b : Nat} (hb : b ∈ Edges.next table a) : a < trimmed.size := by
  by_contra ha
  rw [h.sink a ha] at hb
  cases hb

theorem reaches_iff (h : Trims table trimmed) {a b : Nat} (hb : b < trimmed.size) :
    Reaches (Edges.next trimmed) a b ↔ Reaches (Edges.next table) a b := by
  constructor
  · refine ReflTransGen.mono (fun c d hs => ?_) a b
    by_cases hc : c < trimmed.size
    · rw [h.next c hc] at hs
      exact (List.mem_filter.mp hs).1
    · simp [Edges.next, Array.getElem?_eq_none (Nat.le_of_not_lt hc)] at hs
  · intro hr
    induction hr using ReflTransGen.head_induction_on with
    | refl => exact Reaches.refl b
    | @head c d hs hdb ih =>
      -- the way ends here or goes on, and only nodes that are left lead on
      have hd : d < trimmed.size := by
        rcases ReflTransGen.cases_head hdb with rfl | ⟨e, hstep, -⟩
        · exact hb
        · exact h.below_of_step hstep
      refine ReflTransGen.head ?_ ih
      rw [h.next c (h.below_of_step hs)]
      exact List.mem_filter.mpr ⟨hs, decide_eq_true hd⟩

theorem mutual_iff (h : Trims table trimmed) {a b : Nat} (ha : a < trimmed.size) (hb : b < trimmed.size) :
    Mutual (Edges.next trimmed) a b ↔ Mutual (Edges.next table) a b :=
  and_congr (h.reaches_iff hb) (h.reaches_iff ha)

theorem below_of_mutual (h : Trims table trimmed) {a b : Nat} (ha : a < trimmed.size)
    (hmutual : Mutual (Edges.next table) a b) : b < trimmed.size := by
  rcases ReflTransGen.cases_head hmutual.2 with rfl | ⟨c, hstep, -⟩
  · exact ha
  · exact h.below_of_step hstep

theorem leaders (h : Trims table trimmed) (row : List Nat) :
    (leaders (Edges.next table) row).filter (· < trimmed.size) =
      SchemaModels.leaders (Edges.next trimmed) (row.filter (· < trimmed.size)) := by
  induction row with
  | nil => rfl
  | cons node row ih =>
    -- a node that is left has a leader behind it in both tables or in neither
    by_cases hled : ∃ leader ∈ SchemaModels.leaders (Edges.next table) row, Mutual (Edges.next table) node leader
    · obtain ⟨leader, hleader, hmutual⟩ := hled
      rw [leaders_cons_of_led hleader hmutual, ih]
      by_cases hnode : node < trimmed.size
      · have hbelow := h.below_of_mutual hnode hmutual
        have hmem : leader ∈ SchemaModels.leaders (Edges.next trimmed) (row.filter (· < trimmed.size)) :=
          ih ▸ List.mem_filter.mpr ⟨hleader, decide_eq_true hbelow⟩
        rw [filter_lt_cons, if_pos hnode, leaders_cons_of_led hmem ((h.mutual_iff hnode hbelow).mpr hmutual)]
      · rw [filter_lt_cons, if_neg hnode]
    · have hfree : ∀ leader ∈ SchemaModels.leaders (Edges.next table) row, ¬ Mutual (Edges.next table) node leader :=
        fun leader hleader hmutual => hled ⟨leader, hleader, hmutual⟩
      rw [leaders_cons_of_free hfree, filter_lt_cons, filter_lt_cons, ih]
      by_cases hnode : node < trimmed.size
      · rw [if_pos hnode, if_pos hnode, leaders_cons_of_free]
        intro leader hleader hmutual
        rw [← ih] at hleader
        obtain ⟨hmem, hbelow⟩ := List.mem_filter.mp hleader
        exact hfree leader hmem ((h.mutual_iff hnode (of_decide_eq_true hbelow)).mp hmutual)
      · rw [if_neg hnode, if_neg hnode]

theorem block (h : Trims table trimmed) {node : Nat} (hnode : node < trimmed.size) :
    arrange (strictNext table) (classOf (Edges.next table) table.size node) =
      arrange (strictNext trimmed) (classOf (Edges.next trimmed) trimmed.size node) := by
  have hclass : classOf (Edges.next table) table.size node = classOf (Edges.next trimmed) trimmed.size node := by
    classical
    rw [classOf, classOf, ← range_filter_lt h.size_le, List.filter_filter]
    refine List.filter_congr fun x _ => ?_
    rw [Bool.eq_iff_iff, Bool.and_eq_true, decide_eq_true_eq, decide_eq_true_eq, decide_eq_true_eq]
    constructor
    · intro hmutual
      have hx := h.below_of_mutual hnode hmutual
      exact ⟨(h.mutual_iff hnode hx).mpr hmutual, hx⟩
    · exact fun hx => (h.mutual_iff hnode hx.2).mp hx.1
  rw [hclass]
  refine arrange_congr fun source hs target ht => ?_
  exact (h.strict source (mem_classOf.mp hs).1 target (mem_classOf.mp ht).1).symm

/-- The order without the nodes taken away is the order of what is left. -/
theorem order (h : Trims table trimmed) (hinside : Inside table) :
    (order table).filter (· < trimmed.size) = Edges.order trimmed := by
  -- a block is left as a whole or taken away as a whole
  have hkeep : ∀ node, (arrange (strictNext table) (classOf (Edges.next table) table.size node)).filter (· < trimmed.size) =
      if node < trimmed.size then arrange (strictNext trimmed) (classOf (Edges.next trimmed) trimmed.size node) else [] := by
    intro node
    split
    · next hnode =>
      rw [h.block hnode, List.filter_eq_self]
      intro x hx
      exact decide_eq_true (mem_arrange_classOf.mp hx).1
    · next hnode =>
      rw [List.filter_eq_nil_iff]
      intro x hx hbelow
      have hmutual := (mem_arrange_classOf.mp hx).2
      exact hnode (h.below_of_mutual (of_decide_eq_true hbelow) hmutual.symm)
  rw [← flatten_blocks hinside, ← flatten_blocks h.inside, blocks, blocks, ← h.postOrder hinside, ← h.leaders,
    ← List.flatMap_def, ← List.flatMap_def, List.filter_flatMap]
  simp only [hkeep]
  induction SchemaModels.leaders (Edges.next table) (Edges.postOrder table) with
  | nil => rfl
  | cons node row ih =>
    rw [List.flatMap_cons, ih, filter_lt_cons]
    by_cases hnode : node < trimmed.size
    · rw [if_pos hnode, if_pos hnode, List.flatMap_cons]
    · rw [if_neg hnode, if_neg hnode, List.nil_append]

end Trims

end Edges

/-! ## Calls -/

namespace Graph

namespace Call

/-- The name that a call adds first. -/
def source : Call → String
  | node name => name
  | dependency source _ => source
  | supertype source _ => source

/-- Whether a call mentions no target apart from some names. -/
def isWithin (names : List String) : Call → Bool
  | node _ => true
  | dependency _ target => names.contains target
  | supertype _ target => names.contains target

theorem isWithin_of_target? {source target : String} {c : Call} (h : c.target? source = some target) (names : List String) :
    c.isWithin names = names.contains target := by
  cases c with
  | node name => cases h
  | dependency s t => rw [isWithin, (by simpa [target?] using h : s = source ∧ t = target).2]
  | supertype s t => rw [isWithin, (by simpa [target?] using h : s = source ∧ t = target).2]

theorem isWithin_of_strictTarget? {source target : String} {c : Call} (h : c.strictTarget? source = some target)
    (names : List String) : c.isWithin names = names.contains target := by
  cases c with
  | node name => cases h
  | dependency s t => cases h
  | supertype s t => rw [isWithin, (by simpa [strictTarget?] using h : s = source ∧ t = target).2]

end Call

/-- Leaving out calls that mention other targets leaves out those targets. -/
theorem eraseDups_filterMap_within {f : Call → Option String} {names : List String}
    (hf : ∀ c t, f c = some t → c.isWithin names = names.contains t) (calls : List Call) :
    ((calls.filter (Call.isWithin names)).filterMap f).eraseDups =
      ((calls.filterMap f).eraseDups).filter names.contains := by
  rw [← eraseDups_filter]
  congr 1
  induction calls with
  | nil => rfl
  | cons c calls ih =>
    cases hc : f c with
    | none =>
      rw [List.filterMap_cons_none hc, ← ih]
      by_cases hw : c.isWithin names = true
      · rw [List.filter_cons_of_pos hw, List.filterMap_cons_none hc]
      · rw [List.filter_cons_of_neg hw]
    | some t =>
      rw [List.filterMap_cons_some hc]
      by_cases ht : names.contains t = true
      · rw [List.filter_cons_of_pos ht, List.filter_cons_of_pos ((hf c t hc).trans ht), List.filterMap_cons_some hc, ih]
      · rw [List.filter_cons_of_neg ht, List.filter_cons_of_neg (by rwa [hf c t hc]), ih]

/-- Calls that add some names first and then link only these to others. -/
structure Declares (names : List String) (calls : List Call) : Prop where
  nodup : names.Nodup
  source_mem : ∀ c ∈ calls, c.source ∈ names
  names_first : ∃ links, calls = names.map Call.node ++ links

/-- Calls without those that link to other names. -/
def trim (names : List String) (calls : List Call) : List Call :=
  calls.filter (Call.isWithin names)

theorem targets_trim (names : List String) (calls : List Call) (source : String) :
    targets (trim names calls) source = (targets calls source).filter names.contains :=
  eraseDups_filterMap_within (fun _ _ h => Call.isWithin_of_target? h names) calls

theorem strictTargets_trim (names : List String) (calls : List Call) (source : String) :
    strictTargets (trim names calls) source = (strictTargets calls source).filter names.contains :=
  eraseDups_filterMap_within (fun _ _ h => Call.isWithin_of_strictTarget? h names) calls

namespace Declares

variable {names : List String} {calls : List Call}

theorem mentioned_eq (h : Declares names calls) :
    ∃ others, mentioned calls = names ++ others ∧ ∀ name ∈ others, name ∉ names := by
  obtain ⟨links, rfl⟩ := h.names_first
  have hnames : (names.map Call.node).flatMap Call.names = names := by
    rw [List.flatMap_map]
    exact List.flatMap_singleton' names
  refine ⟨((links.flatMap Call.names).removeAll names).eraseDups, ?_, fun name hname => ?_⟩
  · rw [mentioned, List.flatMap_append, hnames, List.eraseDups_append, eraseDups_of_nodup h.nodup]
  · rw [List.mem_eraseDups, List.removeAll, List.mem_filter] at hname
    simpa using hname.2

theorem trim (h : Declares names calls) : Declares names (trim names calls) := by
  obtain ⟨links, rfl⟩ := h.names_first
  refine ⟨h.nodup, fun c hc => h.source_mem c (List.mem_filter.mp hc).1, links.filter (Call.isWithin names), ?_⟩
  rw [Graph.trim, List.filter_append, List.filter_eq_self.mpr]
  simp [Call.isWithin]

theorem mentioned_trim (h : Declares names calls) : mentioned (Graph.trim names calls) = names := by
  obtain ⟨others, hothers, hapart⟩ := h.trim.mentioned_eq
  have hnone : others = [] := by
    rw [List.eq_nil_iff_forall_not_mem]
    intro name hname
    have hmem : name ∈ mentioned (Graph.trim names calls) := hothers ▸ List.mem_append_right _ hname
    obtain ⟨c, hc, hmention⟩ := mem_mentioned.mp hmem
    have hsource := h.trim.source_mem c hc
    have hwithin := (List.mem_filter.mp hc).2
    refine hapart name hname ?_
    cases c with
    | node n => exact List.mem_singleton.mp hmention ▸ hsource
    | dependency s t =>
      rcases List.mem_cons.mp hmention with rfl | ht
      · exact hsource
      · exact List.mem_singleton.mp ht ▸ List.contains_iff_mem.mp hwithin
    | supertype s t =>
      rcases List.mem_cons.mp hmention with rfl | ht
      · exact hsource
      · exact List.mem_singleton.mp ht ▸ List.contains_iff_mem.mp hwithin
  rw [hothers, hnone, List.append_nil]

theorem targets_eq_nil (h : Declares names calls) {source : String} (hs : source ∉ names) : targets calls source = [] := by
  rw [List.eq_nil_iff_forall_not_mem]
  intro target ht
  rcases mem_targets.mp ht with hc | hc
  · exact hs (h.source_mem _ hc)
  · exact hs (h.source_mem _ hc)

theorem linkCount_trim (h : Declares names calls) {target : String} (ht : target ∈ names) :
    linkCount (Graph.trim names calls) target = linkCount calls target := by
  obtain ⟨others, hothers, hapart⟩ := h.mentioned_eq
  have hnone : others.countP (fun source => (targets calls source).contains target) = 0 := by
    rw [List.countP_eq_zero]
    intro source hsource
    rw [h.targets_eq_nil (hapart source hsource)]
    exact Bool.false_ne_true
  rw [linkCount, linkCount, h.mentioned_trim, hothers, List.countP_append, hnone, Nat.add_zero]
  refine List.countP_congr fun source _ => ?_
  rw [targets_trim]
  simp [ht]

/-- Declared names have the same numbers, the first ones, with and without the others. -/
theorem index_trim (h : Declares names calls) {name : String} (hname : name ∈ names) :
    (ofCalls (Graph.trim names calls)).index name = (ofCalls calls).index name := by
  obtain ⟨others, hothers, -⟩ := h.mentioned_eq
  rw [index, index, Registry.index, Registry.index, (ofCalls_represents _).names, (ofCalls_represents _).names,
    h.mentioned_trim, hothers, List.idxOf_append_of_mem hname]

theorem size_trim (h : Declares names calls) : (ofCalls (Graph.trim names calls)).edges.size = names.length := by
  rw [size_edges, (ofCalls_represents _).names, h.mentioned_trim]

theorem index_lt_iff (h : Declares names calls) (name : String) :
    (ofCalls calls).index name < names.length ↔ name ∈ names := by
  obtain ⟨others, hothers, -⟩ := h.mentioned_eq
  rw [index, Registry.index, (ofCalls_represents _).names, hothers, List.idxOf_append]
  by_cases hmem : name ∈ names
  · simp [hmem, List.idxOf_lt_length_of_mem hmem]
  · simp [hmem]

theorem name_trim (h : Declares names calls) {i : Nat} (hi : i < names.length) :
    (ofCalls (Graph.trim names calls)).name i = (ofCalls calls).name i := by
  obtain ⟨others, hothers, -⟩ := h.mentioned_eq
  rw [Graph.name, Graph.name, (ofCalls_represents _).names, (ofCalls_represents _).names, h.mentioned_trim, hothers,
    List.getElem?_append_left hi]

theorem exists_name (h : Declares names calls) {i : Nat} (hi : i < names.length) :
    ∃ name ∈ names, (ofCalls calls).index name = i ∧ (ofCalls (Graph.trim names calls)).index name = i := by
  obtain ⟨hmem, hindex⟩ := (ofCalls (Graph.trim names calls)).index_name (h.size_trim ▸ hi)
  rw [(ofCalls_represents _).names, h.mentioned_trim] at hmem
  exact ⟨_, hmem, (h.index_trim hmem).symm.trans hindex, hindex⟩

theorem mem_nodes (h : Declares names calls) {name : String} (hname : name ∈ names) :
    name ∈ (ofCalls calls).nodes.names := by
  obtain ⟨others, hothers, -⟩ := h.mentioned_eq
  rw [(ofCalls_represents calls).names, hothers]
  exact List.mem_append_left others hname

/-- Without links to other names the table loses the nodes of those names. -/
theorem trims (h : Declares names calls) :
    Edges.Trims (ofCalls calls).edges (ofCalls (Graph.trim names calls)).edges := by
  have hg := ofCalls_represents calls
  have ht := ofCalls_represents (Graph.trim names calls)
  refine ⟨?_, fun a ha => ?_, fun a ha b hb => ?_, fun a ha => ?_, fun a ha => ?_⟩
  · obtain ⟨others, hothers, -⟩ := h.mentioned_eq
    rw [h.size_trim, size_edges, hg.names, hothers, List.length_append]
    exact Nat.le_add_right _ _
  · rw [h.size_trim] at ha ⊢
    obtain ⟨source, hs, hindex, hindex'⟩ := h.exists_name ha
    have hnext := hg.next_index (h.mem_nodes hs)
    have hnext' := ht.next_index (h.trim.mem_nodes hs)
    rw [hindex] at hnext
    rw [hindex'] at hnext'
    have hkeep : ∀ target ∈ targets calls source,
        ((fun i => decide (i < names.length)) ∘ (ofCalls calls).index) target = names.contains target := by
      intro target _
      rw [Function.comp_apply, List.contains_eq_mem, decide_eq_decide]
      exact h.index_lt_iff target
    rw [hnext, hnext', targets_trim, List.filter_map, List.filter_congr hkeep]
    exact List.map_congr_left fun target htarget =>
      h.index_trim (List.contains_iff_mem.mp (List.mem_filter.mp htarget).2)
  · rw [h.size_trim] at ha hb
    obtain ⟨source, hs, hindex, hindex'⟩ := h.exists_name ha
    obtain ⟨target, htarget, hnumber, hnumber'⟩ := h.exists_name hb
    have hstrict := index_mem_map (h.mem_nodes htarget) (strictTargets calls source)
    have hstrict' := index_mem_map (h.trim.mem_nodes htarget) (strictTargets (Graph.trim names calls) source)
    rw [← hg.strictNext_index (h.mem_nodes hs), hindex, hnumber] at hstrict
    rw [← ht.strictNext_index (h.trim.mem_nodes hs), hindex', hnumber', strictTargets_trim, List.mem_filter] at hstrict'
    rw [hstrict, hstrict']
    exact and_iff_left (List.contains_iff_mem.mpr htarget)
  · rw [h.size_trim] at ha
    obtain ⟨name, hname, hindex, hindex'⟩ := h.exists_name ha
    have hedges := (ofCalls calls).getElem?_edges (h.mem_nodes hname)
    have hedges' := (ofCalls (Graph.trim names calls)).getElem?_edges (h.trim.mem_nodes hname)
    rw [hindex] at hedges
    rw [hindex'] at hedges'
    rw [hedges, hedges', hg.incoming, ht.incoming, h.linkCount_trim hname]
  · rw [h.size_trim] at ha
    by_cases hbelow : a < (ofCalls calls).edges.size
    · obtain ⟨hmem, hindex⟩ := (ofCalls calls).index_name hbelow
      have hnext := hg.next_index hmem
      rw [hindex] at hnext
      rw [← hindex, h.index_lt_iff] at ha
      rw [hnext, h.targets_eq_nil ha, List.map_nil]
    · simp [Edges.next, Array.getElem?_eq_none (Nat.le_of_not_lt hbelow)]

/-- Links to other names do not matter for the order of the declared ones. -/
theorem order_trim (h : Declares names calls) :
    (ofCalls (Graph.trim names calls)).order = (ofCalls calls).order.filter names.contains := by
  have hg := ofCalls_represents calls
  have hkeep : ∀ i ∈ Edges.order (ofCalls calls).edges,
      (names.contains ∘ (ofCalls calls).name) i = decide (i < (ofCalls (Graph.trim names calls)).edges.size) := by
    intro i hi
    rw [← Edges.flatten_blocks hg.inside, (Edges.blocks_blocked hg.inside).perm.mem_iff, List.mem_range] at hi
    have hiff := h.index_lt_iff ((ofCalls calls).name i)
    rw [((ofCalls calls).index_name hi).2] at hiff
    rw [Function.comp_apply, List.contains_eq_mem, h.size_trim, decide_eq_decide]
    exact hiff.symm
  rw [Graph.order, Graph.order, List.filter_map, List.filter_congr hkeep, h.trims.order hg.inside]
  refine List.map_congr_left fun i hi => h.name_trim ?_
  rw [← h.trims.order hg.inside, List.mem_filter, h.size_trim] at hi
  exact of_decide_eq_true hi.2

end Declares

end Graph

end SchemaModels
