import Mathlib.Order.WellFoundedSet
import SchemaModels.Proofs.Order

/-! The order inside a component. If the strict links between different members of a component do not
run in a circle, then no member comes before one that it is strictly linked to, and among all rows of
the members with this property the block is the least one by the numbers of the nodes. -/

namespace SchemaModels.Graph
set_option autoImplicit false

open Relation

/-! ## Strict links in a component -/

/-- A strict link between two members of the component of a name. -/
def InnerLink (calls : List Call) (member target source : String) : Prop :=
  SameComponent calls member target ∧ SameComponent calls member source ∧ StrictlyLinked calls target source

/-- A row of names in which none comes before one that it is strictly linked to. -/
def BasesFirst (calls : List Call) (row : List String) : Prop :=
  row.Pairwise fun earlier later => ¬ StrictlyLinked calls later earlier

/-- The members of a component in a row with bases first, and no such row of them has smaller numbers. -/
structure LeastRow (calls : List Call) (member : String) (block : List String) : Prop where
  nodup : block.Nodup
  mem_iff : ∀ name, name ∈ block ↔ SameComponent calls member name
  basesFirst : BasesFirst calls block
  least : ∀ row : List String, row.Perm block → BasesFirst calls row →
    block = row ∨ List.Lex (· < ·) (block.map (ofCalls calls).index) (row.map (ofCalls calls).index)

/-- Strict links in a component that never lead back to their start are well founded: there are only
finitely many names. -/
theorem innerLink_wf {calls : List Call} {member : String} (h : ∀ name, ¬ TransGen (InnerLink calls member) name name) :
    WellFounded (InnerLink calls member) := by
  have hfinite : {name | name ∈ mentioned calls}.Finite := List.finite_toSet (mentioned calls)
  have : IsStrictOrder String (TransGen (InnerLink calls member)) :=
    { irrefl := h, trans := fun _ _ _ => TransGen.trans }
  have hwf := Set.wellFoundedOn_iff.mp
    (hfinite.wellFoundedOn : Set.WellFoundedOn _ (TransGen (InnerLink calls member)))
  refine Subrelation.wf (fun {target source} hlink => ?_) hwf
  have hmem := mem_mentioned_of_mem_targets (mem_targets.mpr (Or.inr hlink.2.2.1))
  exact ⟨TransGen.single hlink, hmem.2, hmem.1⟩

/-! ## Blocks by number -/

namespace Represents

variable {calls : List Call} {g : Graph}

theorem awaits_iff (h : Represents calls g) {target source : Nat} (ht : target < g.edges.size)
    (hs : source < g.edges.size) :
    Awaits (Edges.strictNext g.edges) target source ↔ StrictlyLinked calls (g.name target) (g.name source) := by
  have hiff := h.awaits_index (g.index_name ht).1 (g.index_name hs).1
  rwa [(g.index_name ht).2, (g.index_name hs).2] at hiff

theorem targetsFirst_iff (h : Represents calls g) {names : List String} (hnames : ∀ name ∈ names, name ∈ g.nodes.names) :
    TargetsFirst (Edges.strictNext g.edges) (names.map g.index) ↔ BasesFirst calls names := by
  rw [TargetsFirst, List.pairwise_map, BasesFirst]
  constructor
  · refine fun hrow => hrow.imp_of_mem fun {earlier later} hearlier hlater hnot => ?_
    rwa [← h.awaits_index (hnames later hlater) (hnames earlier hearlier)]
  · refine fun hrow => hrow.imp_of_mem fun {earlier later} hearlier hlater hnot => ?_
    rwa [h.awaits_index (hnames later hlater) (hnames earlier hearlier)]

/-- The block of a name: numbers in increasing order before they are arranged. -/
theorem exists_block (h : Represents calls g) {member : String} (hmember : member ∈ g.nodes.names) :
    ∃ before numbers after, Edges.blocks g.edges = before ++ arrange (Edges.strictNext g.edges) numbers :: after ∧
      numbers.Sublist (List.range g.edges.size) ∧
      ∀ name, name ∈ numbers.map g.name ↔ SameComponent calls member name := by
  have hindex : g.index member < g.edges.size := by
    rw [size_edges]
    exact List.idxOf_lt_length_of_mem hmember
  obtain ⟨block, hblock, hmem⟩ := List.mem_flatten.mp
    ((Edges.blocks_blocked h.inside).perm.mem_iff.mpr (List.mem_range.mpr hindex))
  have hname : member ∈ block.map g.name := List.mem_map.mpr ⟨_, hmem, g.name_index hmember⟩
  have hclass := h.mem_block_iff hblock hname
  obtain ⟨before, after, hsplit⟩ := List.append_of_mem hblock
  obtain ⟨leader, -, rfl⟩ := List.mem_map.mp hblock
  refine ⟨before, _, after, hsplit, classOf_sublist _ _ leader, fun name => ?_⟩
  rw [← hclass name]
  exact ((arrange_perm _ _).map g.name).mem_iff.symm

theorem awaitsIn_wf (h : Represents calls g) {member : String} {numbers : List Nat}
    (hbelow : ∀ i ∈ numbers, i < g.edges.size)
    (hclass : ∀ name, name ∈ numbers.map g.name ↔ SameComponent calls member name)
    (hwf : WellFounded (InnerLink calls member)) : WellFounded (AwaitsIn (Edges.strictNext g.edges) numbers) := by
  refine Subrelation.wf (fun {target source} hawaits => ?_) (InvImage.wf g.name hwf)
  obtain ⟨ht, hs, hstrict⟩ := hawaits
  exact ⟨(hclass _).mp (List.mem_map_of_mem ht), (hclass _).mp (List.mem_map_of_mem hs),
    (h.awaits_iff (hbelow _ ht) (hbelow _ hs)).mp hstrict⟩

end Represents

/-! ## The block of a component -/

/-- The numbers of a component, arranged and named, are its least row. -/
theorem leastRow_arrange {calls : List Call} {member : String} {numbers : List Nat}
    (hsub : numbers.Sublist (List.range (ofCalls calls).edges.size))
    (hclass : ∀ name, name ∈ numbers.map (ofCalls calls).name ↔ SameComponent calls member name)
    (hwf : WellFounded (InnerLink calls member)) :
    LeastRow calls member
      ((arrange (Edges.strictNext (ofCalls calls).edges) numbers).map (ofCalls calls).name) := by
  have h := ofCalls_represents calls
  set g := ofCalls calls with hg
  set block := arrange (Edges.strictNext g.edges) numbers
  have hperm : block.Perm numbers := arrange_perm _ numbers
  have hbelow : ∀ i ∈ numbers, i < g.edges.size := fun i hi => List.mem_range.mp (hsub.subset hi)
  have hindex : (block.map g.name).map g.index = block :=
    map_index_map_name g fun i hi => hbelow i (hperm.mem_iff.mp hi)
  have hnames : ∀ name ∈ block.map g.name, name ∈ g.nodes.names := by
    intro name hname
    obtain ⟨i, hi, rfl⟩ := List.mem_map.mp hname
    exact (g.index_name (hbelow i (hperm.mem_iff.mp hi))).1
  refine ⟨?_, fun name => ?_, ?_, fun row hrow hfirst => ?_⟩
  · refine List.Nodup.of_map g.index ?_
    rw [hindex, hperm.nodup_iff]
    exact List.nodup_range.sublist hsub
  · rw [← hclass name]
    exact (hperm.map g.name).mem_iff
  · rw [← h.targetsFirst_iff hnames, hindex]
    exact arrange_targetsFirst (h.awaitsIn_wf hbelow hclass hwf)
  · -- by number the other row is a row of the same block, so it is not smaller
    have hrowNames : ∀ name ∈ row, name ∈ g.nodes.names := fun name hname => hnames name (hrow.mem_iff.mp hname)
    have hnumbers : (row.map g.index).Perm numbers := by
      have hmap := hrow.map g.index
      rw [hindex] at hmap
      exact hmap.trans hperm
    rw [← hg, hindex]
    refine (arrange_least (List.pairwise_lt_range.sublist hsub) hnumbers
      ((h.targetsFirst_iff hrowNames).mpr hfirst)).imp_left fun heq => ?_
    rw [show block = row.map g.index from heq, map_name_map_index g hrowNames]

/-- The members of a component in which strict links do not run in a circle stand together, in the
least row with bases first; without strict links between them that is the order in which they were
first mentioned. -/
theorem component_leastRow (calls : List Call) (member : String) (hmember : ∃ c ∈ calls, member ∈ c.names)
    (hacyclic : ∀ name, ¬ TransGen (InnerLink calls member) name name) :
    ∃ before block after, (ofCalls calls).order = before ++ block ++ after ∧ LeastRow calls member block ∧
      ((∀ target source, ¬ InnerLink calls member target source) → block.Sublist (mentioned calls)) := by
  have h := ofCalls_represents calls
  obtain ⟨before, numbers, after, hblocks, hsub, hclass⟩ :=
    h.exists_block (h.names ▸ mem_mentioned.mpr hmember)
  refine ⟨before.flatten.map (ofCalls calls).name, _, after.flatten.map (ofCalls calls).name, ?_,
    leastRow_arrange hsub hclass (innerLink_wf hacyclic), fun hfree => ?_⟩
  · rw [Graph.order, ← Edges.flatten_blocks h.inside, hblocks]
    simp
  · have hbelow : ∀ i ∈ numbers, i < (ofCalls calls).edges.size := fun i hi =>
      List.mem_range.mp (hsub.subset hi)
    have hinsertion : arrange (Edges.strictNext (ofCalls calls).edges) numbers = numbers := by
      refine arrange_of_free fun target source hawaits => ?_
      obtain ⟨ht, hs, hstrict⟩ := hawaits
      exact hfree _ _ ⟨(hclass _).mp (List.mem_map_of_mem ht), (hclass _).mp (List.mem_map_of_mem hs),
        (h.awaits_iff (hbelow _ ht) (hbelow _ hs)).mp hstrict⟩
    rw [hinsertion, ← h.names, ← map_name_range]
    exact hsub.map _

/-- Three types in a circle, mentioned from the last derived one on, and a fourth that needs them. -/
theorem component_leastRow_chain :
    let calls := [Call.node "C", .node "B", .node "A", .supertype "C" "B", .supertype "B" "A", .dependency "A" "C",
      .supertype "C" "C", .supertype "D" "C"]
    (∀ name, ¬ TransGen (InnerLink calls "C") name name) ∧
      ∃ before block after, (ofCalls calls).order = before ++ block ++ after ∧ LeastRow calls "C" block ∧
        ((∀ target source, ¬ InnerLink calls "C" target source) → block.Sublist (mentioned calls)) := by
  intro calls
  -- every strict link leads on in this row, so none leads back
  have hrank : ∀ target source, StrictlyLinked calls target source →
      ["A", "B", "C", "D"].idxOf target < ["A", "B", "C", "D"].idxOf source := by
    rintro target source ⟨hmem, hne⟩
    simp only [calls, List.mem_cons, Call.supertype.injEq, reduceCtorEq, false_or, or_false, List.not_mem_nil] at hmem
    rcases hmem with ⟨rfl, rfl⟩ | ⟨rfl, rfl⟩ | ⟨rfl, rfl⟩ | ⟨rfl, rfl⟩
    · decide
    · decide
    · exact absurd rfl hne
    · decide
  have hway : ∀ target source, TransGen (InnerLink calls "C") target source →
      ["A", "B", "C", "D"].idxOf target < ["A", "B", "C", "D"].idxOf source := by
    intro target source hlinks
    induction hlinks with
    | single hlink => exact hrank _ _ hlink.2.2
    | tail _ hlink ih => exact ih.trans (hrank _ _ hlink.2.2)
  have hacyclic : ∀ name, ¬ TransGen (InnerLink calls "C") name name := fun name hlinks =>
    Nat.lt_irrefl _ (hway name name hlinks)
  exact ⟨hacyclic, component_leastRow calls "C" ⟨.node "C", List.mem_cons_self, List.mem_cons_self⟩ hacyclic⟩

end SchemaModels.Graph
