import SchemaModels.Graph.Order
import SchemaModels.Proofs.Arrangement
import SchemaModels.Proofs.GraphCalls
import SchemaModels.Proofs.Search

/-! The order of a graph. Among the numbers of nodes the order is a row of blocks, one for each
component, with no edge from a block to a later one; `order_ofCalls` carries this over to names and to
the calls that built the graph. -/

namespace SchemaModels
set_option autoImplicit false

open Relation

namespace Edges

/-- All edges lead to nodes of the table. -/
def Inside (table : Array Edges) : Prop :=
  ∀ node, ∀ target ∈ next table node, target < table.size

theorem lt_of_mem_starts {table : Array Edges} {node : Nat} (h : node ∈ starts table) : node < table.size := by
  rcases List.mem_append.mp h with h | h
  · exact List.mem_range.mp (List.mem_filter.mp h).1
  · exact List.mem_range.mp h

/-! ## Blocks -/

/-- The nodes in the order in which the recursive walk from all starts finishes them. -/
noncomputable def postOrder (table : Array Edges) : List Nat :=
  Classical.epsilon (Visits (next table) [] (starts table))

/-- The classes of the leaders of the post-order, each arranged. -/
noncomputable def blocks (table : Array Edges) : List (List Nat) :=
  (leaders (next table) (postOrder table)).map fun leader =>
    arrange (strictNext table) (classOf (next table) table.size leader)

section

variable {table : Array Edges}

theorem search_walks (h : Inside table) :
    Visits (next table) [] (starts table) (postOrder table) ∧ order table = (blocks table).flatten ∧
      (leaders (next table) (postOrder table)).Pairwise fun leader later => ¬ Reaches (next table) leader later := by
  obtain ⟨row, hvisits, horder, hapart⟩ :=
    Search.order_foldl_connect h (arrange_perm (strictNext table)) fun _ hnode => lt_of_mem_starts hnode
  have hrow : row = postOrder table := hvisits.unique (Classical.epsilon_spec ⟨row, hvisits⟩)
  rw [← hrow, blocks, ← hrow, ← List.flatMap_def]
  exact ⟨hvisits, horder, hapart⟩

theorem postOrder_visits (h : Inside table) : Visits (next table) [] (starts table) (postOrder table) :=
  (search_walks h).1

/-- The search gives the order that the recursive walk defines. -/
theorem flatten_blocks (h : Inside table) : (blocks table).flatten = order table :=
  (search_walks h).2.1.symm

theorem mem_postOrder (h : Inside table) (node : Nat) : node ∈ postOrder table ↔ node < table.size := by
  have hvisits := postOrder_visits h
  constructor
  · have hinside : ∀ x ∈ postOrder table, x ∈ {x | x < table.size} :=
      hvisits.mem_of_closed (fun a _ => h a) fun _ => lt_of_mem_starts
    exact hinside node
  · intro hlt
    have hstart : node ∈ starts table := List.mem_append_right _ (List.mem_range.mpr hlt)
    exact (hvisits.mem_of_start node hstart).resolve_right List.not_mem_nil

/-- What is known of the blocks: together they hold every node once, each is a class of nodes that
reach each other, and no edge leads from one to a later one. -/
structure Blocked (next : Nat → List Nat) (size : Nat) (blocks : List (List Nat)) : Prop where
  perm : blocks.flatten.Perm (List.range size)
  component : ∀ block ∈ blocks, block ≠ [] ∧ ∀ a ∈ block, ∀ b, b ∈ block ↔ Mutual next a b
  ordered : blocks.Pairwise fun c d => ∀ a ∈ c, ∀ b ∈ d, b ∉ next a

theorem lt_of_mutual (h : Inside table) {a b : Nat} (hmutual : Mutual (next table) a b) (ha : a < table.size) :
    b < table.size :=
  hmutual.1.mem_of_closed {x | x < table.size} (fun x _ => h x) ha

theorem mem_arrange_classOf {leader x : Nat} :
    x ∈ arrange (strictNext table) (classOf (next table) table.size leader) ↔
      x < table.size ∧ Mutual (next table) leader x :=
  (arrange_perm _ _).mem_iff.trans mem_classOf

theorem flatten_blocks_perm (h : Inside table) : (blocks table).flatten.Perm (List.range table.size) := by
  have hapart := (search_walks h).2.2
  rw [blocks, ← List.flatMap_def]
  refine (List.perm_ext_iff_of_nodup ?_ List.nodup_range).mpr fun x => ?_
  · refine List.nodup_flatMap.mpr ⟨fun leader _ => ?_, hapart.imp fun {leader later} hnot x hx hx' => ?_⟩
    · exact (arrange_perm _ _).nodup_iff.mpr (List.nodup_range.sublist (classOf_sublist _ _ _))
    · exact hnot ((mem_arrange_classOf.mp hx).2.trans (mem_arrange_classOf.mp hx').2.symm).1
  · rw [List.mem_flatMap, List.mem_range]
    constructor
    · rintro ⟨leader, -, hx⟩
      exact (mem_arrange_classOf.mp hx).1
    · intro hx
      obtain ⟨leader, hleader, hmutual⟩ := exists_leader ((mem_postOrder h x).mpr hx)
      exact ⟨leader, hleader, mem_arrange_classOf.mpr ⟨hx, hmutual.symm⟩⟩

theorem blocks_blocked (h : Inside table) : Blocked (next table) table.size (blocks table) := by
  refine ⟨flatten_blocks_perm h, fun block hblock => ?_, ?_⟩
  · obtain ⟨leader, hleader, rfl⟩ := List.mem_map.mp hblock
    have hlt : leader < table.size := (mem_postOrder h leader).mp (mem_of_mem_leaders hleader)
    refine ⟨List.ne_nil_of_mem (mem_arrange_classOf.mpr ⟨hlt, Mutual.refl leader⟩), fun a ha b => ?_⟩
    obtain ⟨ha, hla⟩ := mem_arrange_classOf.mp ha
    rw [mem_arrange_classOf]
    constructor
    · rintro ⟨-, hlb⟩
      exact hla.symm.trans hlb
    · exact fun hab => ⟨lt_of_mutual h hab ha, hla.trans hab⟩
  · rw [blocks, List.pairwise_map]
    refine (search_walks h).2.2.imp fun {leader later} hnot a ha b hb hab => hnot ?_
    exact ((mem_arrange_classOf.mp ha).2.1.tail hab).trans (mem_arrange_classOf.mp hb).2.2

end

/-- The target of an edge between different blocks comes first. -/
theorem Blocked.target_first {next : Nat → List Nat} {size : Nat} {blocks : List (List Nat)}
    (h : Blocked next size blocks) {a b : Nat} (hab : b ∈ next a) (hne : ¬ Mutual next a b)
    (ha : a < size) (hb : b < size) : [b, a].Sublist blocks.flatten := by
  have hapart : ∀ block ∈ blocks, a ∈ block → b ∉ block := fun block hblock ha hb =>
    hne (((h.component block hblock).2 a ha b).mp hb)
  have ha' : a ∈ blocks.flatten := h.perm.mem_iff.mpr (List.mem_range.mpr ha)
  have hb' : b ∈ blocks.flatten := h.perm.mem_iff.mpr (List.mem_range.mpr hb)
  have hordered := h.ordered
  clear h
  induction blocks with
  | nil => simp at ha'
  | cons block blocks ih =>
    rw [List.pairwise_cons] at hordered
    rw [List.flatten_cons] at ha' hb' ⊢
    rcases List.mem_append.mp hb' with hb' | hb'
    · -- `b` stands in this block, and `a` in a later one
      have ha' := (List.mem_append.mp ha').resolve_left fun hm => hapart block List.mem_cons_self hm hb'
      exact (List.singleton_sublist.mpr hb').append (List.singleton_sublist.mpr ha')
    · have hlater : a ∉ block := by
        intro hm
        obtain ⟨d, hd, hbd⟩ := List.mem_flatten.mp hb'
        exact hordered.1 d hd a hm b hbd hab
      have ha' := (List.mem_append.mp ha').resolve_left hlater
      exact (ih (fun d hd => hapart d (List.mem_cons_of_mem _ hd)) ha' hb' hordered.2).trans
        (List.sublist_append_right _ _)

/-- A strict target inside the component of its source comes first. -/
theorem strict_first {table : Array Edges} (h : Inside table) {source target : Nat}
    (hawaits : Awaits (strictNext table) target source) (hacc : Acc (Awaits (strictNext table)) target)
    (hmutual : Mutual (next table) source target) (hs : source < table.size) :
    [target, source].Sublist (order table) := by
  have hblocked := blocks_blocked h
  obtain ⟨block, hblock, hsource⟩ := List.mem_flatten.mp (hblocked.perm.mem_iff.mpr (List.mem_range.mpr hs))
  have htarget := ((hblocked.component block hblock).2 source hsource target).mpr hmutual
  have hflat : block.Sublist (order table) := flatten_blocks h ▸ List.sublist_flatten_of_mem hblock
  obtain ⟨leader, -, rfl⟩ := List.mem_map.mp hblock
  have hwait := arrange_perm (strictNext table) (classOf (next table) table.size leader)
  exact (arrange_target_first hawaits hacc (hwait.mem_iff.mp hsource) (hwait.mem_iff.mp htarget)).trans hflat

end Edges

/-! ## Names -/

namespace Graph

/-- A call has linked the second name to the first. -/
def Linked (calls : List Call) (source target : String) : Prop :=
  Call.dependency source target ∈ calls ∨ Call.supertype source target ∈ calls

/-- Links lead from each of the two names to the other. -/
def SameComponent (calls : List Call) (a b : String) : Prop :=
  ReflTransGen (Linked calls) a b ∧ ReflTransGen (Linked calls) b a

/-- A call has linked the first name strictly to the second, another one. -/
def StrictlyLinked (calls : List Call) (target source : String) : Prop :=
  Call.supertype source target ∈ calls ∧ target ≠ source

theorem size_edges (g : Graph) : g.edges.size = g.nodes.names.length := by
  simp [edges, Registry.values, Registry.names]

theorem name_eq (g : Graph) {i : Nat} {name : String} (h : g.nodes.names[i]? = some name) :
    g.name i = name := by
  rw [Graph.name, h, Option.getD_some]

theorem name_index (g : Graph) {name : String} (h : name ∈ g.nodes.names) :
    g.name (g.index name) = name :=
  g.name_eq (g.nodes.getElem?_index h)

theorem map_name_range (g : Graph) : (List.range g.edges.size).map g.name = g.nodes.names := by
  rw [size_edges]
  apply List.ext_getElem
  · simp
  · intro i h _
    have hi : i < g.nodes.names.length := by simpa using h
    rw [List.getElem_map, List.getElem_range]
    exact g.name_eq (List.getElem?_eq_getElem hi)

theorem index_name (g : Graph) {i : Nat} (h : i < g.edges.size) :
    g.name i ∈ g.nodes.names ∧ g.index (g.name i) = i := by
  rw [size_edges] at h
  rw [g.name_eq (List.getElem?_eq_getElem h)]
  exact ⟨List.getElem_mem h, g.nodes.names_nodup.idxOf_getElem i h⟩

theorem map_index_map_name (g : Graph) {numbers : List Nat} (h : ∀ i ∈ numbers, i < g.edges.size) :
    (numbers.map g.name).map g.index = numbers := by
  rw [List.map_map]
  exact (List.map_congr_left fun i hi => (g.index_name (h i hi)).2).trans (List.map_id numbers)

theorem map_name_map_index (g : Graph) {names : List String} (h : ∀ name ∈ names, name ∈ g.nodes.names) :
    (names.map g.index).map g.name = names := by
  rw [List.map_map]
  exact (List.map_congr_left fun name hname => g.name_index (h name hname)).trans (List.map_id names)

theorem getElem?_edges (g : Graph) {name : String} (h : name ∈ g.nodes.names) :
    g.edges[g.index name]?.getD {} = g.edgesOf name := by
  rw [edges, List.getElem?_toArray, edgesOf, ← g.nodes.getElem?_values (g.nodes.getElem?_index h)]
  rfl

namespace Represents

variable {calls : List Call} {g : Graph}

/-- The edges of a node by number are the links of its name. -/
theorem next_index (h : Represents calls g) {name : String} (hname : name ∈ g.nodes.names) :
    Edges.next g.edges (g.index name) = (targets calls name).map g.index := by
  rw [Edges.next, g.getElem?_edges hname, h.outgoing]

theorem mem_next_index (h : Represents calls g) {a b : String} (ha : a ∈ g.nodes.names)
    (hb : b ∈ g.nodes.names) : g.index b ∈ Edges.next g.edges (g.index a) ↔ Linked calls a b := by
  rw [h.next_index ha, index_mem_map hb, mem_targets, Linked]

theorem inside (h : Represents calls g) : Edges.Inside g.edges := by
  intro node target ht
  by_cases hnode : node < g.edges.size
  · obtain ⟨hmem, hindex⟩ := g.index_name hnode
    rw [← hindex, h.next_index hmem] at ht
    obtain ⟨name, hname, rfl⟩ := List.mem_map.mp ht
    rw [size_edges]
    exact List.idxOf_lt_length_of_mem (h.target_mem hname)
  · simp [Edges.next, Array.getElem?_eq_none (Nat.le_of_not_lt hnode)] at ht

theorem linked_mem (h : Represents calls g) {a b : String} (hl : Linked calls a b) :
    a ∈ g.nodes.names ∧ b ∈ g.nodes.names := by
  rw [h.names]
  exact mem_mentioned_of_mem_targets (mem_targets.mpr hl)

/-- Links between names are ways between their numbers. -/
theorem reaches_iff (h : Represents calls g) {a b : String} (ha : a ∈ g.nodes.names) :
    ReflTransGen (Linked calls) a b ↔ Reaches (Edges.next g.edges) (g.index a) (g.index b) := by
  constructor
  · intro hr
    induction hr with
    | refl => exact Reaches.refl _
    | tail _ hl ih =>
      obtain ⟨hs, ht⟩ := h.linked_mem hl
      exact ih.tail ((h.mem_next_index hs ht).mpr hl)
  · intro hr
    have hway : ∀ j, Reaches (Edges.next g.edges) (g.index a) j →
        ∃ c ∈ g.nodes.names, g.index c = j ∧ ReflTransGen (Linked calls) a c := by
      intro j hj
      induction hj with
      | refl => exact ⟨a, ha, rfl, ReflTransGen.refl⟩
      | tail _ hs ih =>
        obtain ⟨c, hc, rfl, hac⟩ := ih
        have hd := g.index_name (h.inside _ _ hs)
        rw [← hd.2] at hs
        exact ⟨_, hd.1, hd.2, hac.tail ((h.mem_next_index hc hd.1).mp hs)⟩
    obtain ⟨c, hc, he, hac⟩ := hway _ hr
    exact (g.nodes.index_inj hc).mp he ▸ hac

theorem sameComponent_iff (h : Represents calls g) {a b : String} (ha : a ∈ g.nodes.names)
    (hb : b ∈ g.nodes.names) :
    SameComponent calls a b ↔ Mutual (Edges.next g.edges) (g.index a) (g.index b) :=
  and_congr (h.reaches_iff ha) (h.reaches_iff hb)

/-- What is in a component with a node is a node. -/
theorem sameComponent_mem (h : Represents calls g) {a b : String} (ha : a ∈ g.nodes.names)
    (hab : SameComponent calls a b) : b ∈ g.nodes.names := by
  rcases ReflTransGen.cases_tail hab.1 with heq | ⟨c, -, hl⟩
  · exact heq ▸ ha
  · exact (h.linked_mem hl).2

/-- The order holds every node once. -/
theorem order_perm (h : Represents calls g) : g.order.Perm g.nodes.names := by
  rw [Graph.order, ← Edges.flatten_blocks h.inside, ← map_name_range]
  exact (Edges.blocks_blocked h.inside).perm.map g.name

/-- A block of numbers, named, is a component of names. -/
theorem mem_block_iff (h : Represents calls g) {block : List Nat} (hblock : block ∈ Edges.blocks g.edges)
    {a : String} (ha : a ∈ block.map g.name) (b : String) :
    b ∈ block.map g.name ↔ SameComponent calls a b := by
  have hblocked := Edges.blocks_blocked h.inside
  have hbelow : ∀ i ∈ block, i < g.edges.size := fun i hi =>
    List.mem_range.mp (hblocked.perm.mem_iff.mp (List.mem_flatten_of_mem hblock hi))
  have hmem : ∀ c ∈ g.nodes.names, c ∈ block.map g.name ↔ g.index c ∈ block := by
    intro c hc
    rw [List.mem_map]
    constructor
    · rintro ⟨i, hi, rfl⟩
      rw [(g.index_name (hbelow i hi)).2]
      exact hi
    · exact fun hi => ⟨_, hi, g.name_index hc⟩
  have hnode : ∀ c ∈ block.map g.name, c ∈ g.nodes.names := by
    intro c hc
    obtain ⟨i, hi, rfl⟩ := List.mem_map.mp hc
    exact (g.index_name (hbelow i hi)).1
  have hclass := (hblocked.component block hblock).2 (g.index a) ((hmem a (hnode a ha)).mp ha)
  constructor
  · intro hb
    rw [h.sameComponent_iff (hnode a ha) (hnode b hb), ← hclass, ← hmem b (hnode b hb)]
    exact hb
  · intro hab
    have hb := h.sameComponent_mem (hnode a ha) hab
    rw [hmem b hb, hclass, ← h.sameComponent_iff (hnode a ha) hb]
    exact hab

/-- The strict edges of a node by number are the strict links of its name. -/
theorem strictNext_index (h : Represents calls g) {name : String} (hname : name ∈ g.nodes.names) :
    Edges.strictNext g.edges (g.index name) = (strictTargets calls name).map g.index := by
  rw [Edges.strictNext, g.getElem?_edges hname, h.strict]

/-- A strict edge between two numbers is a strict link between their names. -/
theorem awaits_index (h : Represents calls g) {target source : String} (ht : target ∈ g.nodes.names)
    (hs : source ∈ g.nodes.names) :
    Awaits (Edges.strictNext g.edges) (g.index target) (g.index source) ↔ StrictlyLinked calls target source := by
  rw [Awaits, h.strictNext_index hs, index_mem_map ht, mem_strictTargets, StrictlyLinked]
  exact and_congr_right fun _ => not_congr (g.nodes.index_inj ht)

/-- Strict links that do not run in a circle are strict edges that do not. -/
theorem acc_index (h : Represents calls g) {name : String} (hname : name ∈ g.nodes.names)
    (hacc : Acc (StrictlyLinked calls) name) : Acc (Awaits (Edges.strictNext g.edges)) (g.index name) := by
  induction hacc with
  | intro name _ ih =>
    refine Acc.intro _ fun i hi => ?_
    have hmem := hi.1
    rw [h.strictNext_index hname, List.mem_map] at hmem
    obtain ⟨target, htarget, rfl⟩ := hmem
    have ht := h.strictTarget_mem htarget
    exact ih target ((h.awaits_index ht hname).mp hi) ht

/-- The target of a link between components comes first. -/
theorem target_first (h : Represents calls g) {a b : String} (hl : Linked calls a b)
    (hne : ¬ SameComponent calls a b) : [b, a].Sublist g.order := by
  obtain ⟨ha, hb⟩ := h.linked_mem hl
  have hsub := (Edges.blocks_blocked h.inside).target_first ((h.mem_next_index ha hb).mpr hl)
    (fun hm => hne ((h.sameComponent_iff ha hb).mpr hm))
    (by rw [size_edges]; exact List.idxOf_lt_length_of_mem ha)
    (by rw [size_edges]; exact List.idxOf_lt_length_of_mem hb)
  rw [Edges.flatten_blocks h.inside] at hsub
  have hmap := hsub.map g.name
  rw [List.map_cons, List.map_singleton, g.name_index ha, g.name_index hb] at hmap
  exact hmap

/-- A strict target whose own strict links do not run in a circle comes first, in a component or not. -/
theorem strictTarget_first (h : Represents calls g) {target source : String}
    (hl : StrictlyLinked calls target source) (hacc : Acc (StrictlyLinked calls) target) :
    [target, source].Sublist g.order := by
  have hlinked : Linked calls source target := Or.inr hl.1
  obtain ⟨hs, ht⟩ := h.linked_mem hlinked
  by_cases hsame : SameComponent calls source target
  · have hmutual := (h.sameComponent_iff hs ht).mp hsame
    have hsub := Edges.strict_first h.inside ((h.awaits_index ht hs).mpr hl) (h.acc_index ht hacc) hmutual
      (by rw [size_edges]; exact List.idxOf_lt_length_of_mem hs)
    have hmap := hsub.map g.name
    rwa [List.map_cons, List.map_singleton, g.name_index ht, g.name_index hs] at hmap
  · exact h.target_first hlinked hsame

end Represents

/-- The order of a graph built by calls: every name mentioned occurs once, the members of a component
stand together, and a name comes after those it is linked to outside its own component. -/
theorem order_ofCalls (calls : List Call) :
    (ofCalls calls).order.Nodup ∧
      (∀ name, name ∈ (ofCalls calls).order ↔ ∃ c ∈ calls, name ∈ c.names) ∧
      (∃ blocks : List (List String), (ofCalls calls).order = blocks.flatten ∧ ∀ block ∈ blocks, block ≠ [] ∧
        ∀ a ∈ block, ∀ b, b ∈ block ↔ SameComponent calls a b) ∧
      ∀ a b, Linked calls a b → ¬ SameComponent calls a b → [b, a].Sublist (ofCalls calls).order := by
  have h := ofCalls_represents calls
  refine ⟨?_, fun name => ?_, ?_, fun a b => h.target_first⟩
  · exact h.order_perm.nodup_iff.mpr (ofCalls calls).nodes.names_nodup
  · rw [h.order_perm.mem_iff, h.names, mem_mentioned]
  · refine ⟨(Edges.blocks (ofCalls calls).edges).map (List.map (ofCalls calls).name), ?_, ?_⟩
    · rw [Graph.order, ← Edges.flatten_blocks h.inside, List.map_flatten]
    · intro block hblock
      obtain ⟨numbers, hnumbers, rfl⟩ := List.mem_map.mp hblock
      refine ⟨?_, fun a ha b => h.mem_block_iff hnumbers ha b⟩
      exact List.map_eq_nil_iff.not.mpr ((Edges.blocks_blocked h.inside).component numbers hnumbers).1

/-- Two types that refer to each other, one of them and itself to a third. -/
theorem order_ofCalls_cycle :
    let calls := [Call.dependency "A" "B", .dependency "B" "A", .supertype "B" "Base", .dependency "Base" "Base"]
    Linked calls "B" "Base" ∧ ¬ SameComponent calls "B" "Base" ∧ ["Base", "B"].Sublist (ofCalls calls).order := by
  intro calls
  have hlinked : Linked calls "B" "Base" := Or.inr (by decide)
  have hbase : ∀ b, ReflTransGen (Linked calls) "Base" b → b = "Base" := by
    intro b hb
    induction hb with
    | refl => rfl
    | tail _ hl ih =>
      subst ih
      simpa [Linked, calls] using hl
  have hapart : ¬ SameComponent calls "B" "Base" := fun h => absurd (hbase "B" h.2) (by decide)
  exact ⟨hlinked, hapart, (order_ofCalls calls).2.2.2 "B" "Base" hlinked hapart⟩

end Graph

end SchemaModels
