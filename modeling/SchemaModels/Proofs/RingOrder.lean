import SchemaModels.Proofs.FirstDeclarations
import SchemaModels.Proofs.LeastOrder
import SchemaModels.Samples

/-! The order of a ring. Members that refer each to the next one only, around a ring, make one component without
strict references, so they stand together in the order of their numbers. Where all that declarations refer to is
declared, the order is one of the declarations, none left out. -/

namespace SchemaModels
set_option autoImplicit false

open Relation

/-! ## Rings of references -/

namespace Samples

theorem following_lt {size i : Nat} (h : i < size) : following size i < size := by
  rw [following, Nat.max_eq_left (by omega)]
  exact Nat.mod_lt _ (by omega)

theorem following_of_lt {size i : Nat} (h : i + 1 < size) : following size i = i + 1 := by
  rw [following, Nat.max_eq_left (by omega), Nat.mod_eq_of_lt h]

theorem following_last (size : Nat) : following (size + 1) size = 0 := by
  rw [following, Nat.max_eq_left (by omega), Nat.mod_self]

/-- From each member of a ring a way leads to each other: on to the last, from there to the first, and on. -/
theorem reaches_around {R : String → String → Prop} {size : Nat} {member : Nat → String}
    (h : ∀ i < size, R (member i) (member (following size i))) {i j : Nat} (hi : i < size) (hj : j < size) :
    ReflTransGen R (member i) (member j) := by
  have hon : ∀ start steps, start + steps < size → ReflTransGen R (member start) (member (start + steps)) := by
    intro start steps hsteps
    induction steps with
    | zero => exact .refl
    | succ steps ih =>
      have hstep := h (start + steps) (by omega)
      rw [following_of_lt (by omega)] at hstep
      exact (ih (by omega)).tail hstep
  have hlast : ReflTransGen R (member (size - 1)) (member 0) := by
    have hstep := h (size - 1) (by omega)
    obtain ⟨last, rfl⟩ : ∃ last, size = last + 1 := ⟨size - 1, by omega⟩
    rw [Nat.add_sub_cancel, following_last] at hstep
    exact .single hstep
  have hi' := hon i (size - 1 - i) (by omega)
  have hj' := hon 0 j (by omega)
  rw [show i + (size - 1 - i) = size - 1 by omega] at hi'
  rw [Nat.zero_add] at hj'
  exact (hi'.trans hlast).trans hj'

end Samples

theorem filter_mem_of_sublist {row names : List String} (hnodup : names.Nodup) (h : row.Sublist names) :
    names.filter (· ∈ row) = row := by
  have hsub := h.filter (· ∈ row)
  rw [List.filter_eq_self.mpr fun name hname => decide_eq_true hname] at hsub
  have hperm : (names.filter (· ∈ row)).Perm row := by
    refine (List.perm_ext_iff_of_nodup (hnodup.filter _) (hnodup.sublist h)).mpr fun name => ?_
    rw [List.mem_filter, decide_eq_true_eq]
    exact ⟨And.right, fun hname => ⟨h.subset hname, hname⟩⟩
  exact (hsub.eq_of_length hperm.length_eq.symm).symm

/-- Rows in the order of one list with the same members are the same row. -/
theorem eq_of_sublists {row other names : List String} (hnodup : names.Nodup) (hrow : row.Sublist names)
    (hother : other.Sublist names) (hmem : ∀ name, name ∈ row ↔ name ∈ other) : row = other := by
  rw [← filter_mem_of_sublist hnodup hrow, ← filter_mem_of_sublist hnodup hother]
  exact List.filter_congr fun name _ => decide_eq_decide.mpr (hmem name)

namespace Graph

variable {calls : List Call} {g : Graph}

/-- A component without strict links between its members stands together, by the numbers of its members. -/
theorem Represents.exists_free_block (h : Represents calls g) {member : String} (hmember : member ∈ g.nodes.names)
    (hfree : ∀ source, SameComponent calls member source → ∀ target, Call.supertype source target ∉ calls) :
    ∃ before block after, g.order = before ++ block ++ after ∧ block.Sublist g.nodes.names ∧
      ∀ name, name ∈ block ↔ SameComponent calls member name := by
  obtain ⟨before, numbers, after, hblocks, hsub, hclass⟩ := h.exists_block hmember
  have hbelow : ∀ i ∈ numbers, i < g.edges.size := fun i hi => List.mem_range.mp (hsub.subset hi)
  have harrange : arrange (Edges.strictNext g.edges) numbers = numbers := by
    refine arrange_of_free fun target source hawaits => ?_
    obtain ⟨ht, hs, hstrict⟩ := hawaits
    have hlinked := (h.awaits_iff (hbelow _ ht) (hbelow _ hs)).mp hstrict
    exact hfree _ ((hclass _).mp (List.mem_map_of_mem hs)) _ hlinked.1
  refine ⟨before.flatten.map g.name, numbers.map g.name, after.flatten.map g.name, ?_, ?_, hclass⟩
  · rw [Graph.order, ← Edges.flatten_blocks h.inside, hblocks, harrange]
    simp
  · rw [← map_name_range]
    exact hsub.map _

/-- A ring whose members link each to the next one only stands together, in the order around the ring. -/
theorem Represents.exists_ring (h : Represents calls g) {size : Nat} (member : Nat → String)
    (hlinked : ∀ i < size, ∀ target, Linked calls (member i) target ↔ target = member (Samples.following size i))
    (hplain : ∀ i < size, ∀ target, Call.supertype (member i) target ∉ calls)
    (hnames : ((List.range size).map member).Sublist g.nodes.names) :
    ∃ before after, g.order = before ++ (List.range size).map member ++ after := by
  cases size with
  | zero => exact ⟨[], g.order, rfl⟩
  | succ last =>
    have hsize : 0 < last + 1 := Nat.succ_pos last
    have hring : ∀ i < last + 1, Linked calls (member i) (member (Samples.following (last + 1) i)) :=
      fun i hi => (hlinked i hi _).mpr rfl
    -- no link leaves the ring, and around it all members are reached
    have hstay : ∀ name, ReflTransGen (Linked calls) (member 0) name → ∃ i < last + 1, member i = name := by
      intro name hway
      induction hway with
      | refl => exact ⟨0, hsize, rfl⟩
      | tail _ hlink ih =>
        obtain ⟨i, hi, rfl⟩ := ih
        exact ⟨_, Samples.following_lt hi, ((hlinked i hi _).mp hlink).symm⟩
    have hclass : ∀ name, SameComponent calls (member 0) name ↔ ∃ i < last + 1, member i = name := by
      refine fun name => ⟨fun hsame => hstay name hsame.1, ?_⟩
      rintro ⟨i, hi, rfl⟩
      exact ⟨Samples.reaches_around hring hsize hi, Samples.reaches_around hring hi hsize⟩
    have hmember : member 0 ∈ g.nodes.names := hnames.subset (List.mem_map_of_mem (List.mem_range.mpr hsize))
    obtain ⟨before, block, after, horder, hsub, hblock⟩ := h.exists_free_block hmember fun source hsource => by
      obtain ⟨i, hi, rfl⟩ := (hclass source).mp hsource
      exact hplain i hi
    have hrow : block = (List.range (last + 1)).map member := by
      refine eq_of_sublists g.nodes.names_nodup hsub hnames fun name => ?_
      rw [hblock, hclass]
      simp
    exact ⟨before, after, hrow ▸ horder⟩

end Graph

/-! ## Outlines of distinct declarations -/

theorem Declaration.mem_dependencies_make {identity text : String} {dependencies supertypes : List String} {x : String} :
    x ∈ (make identity text dependencies supertypes).dependencies ↔ x ∈ dependencies ∨ x ∈ supertypes := by
  have hfold : ∀ (names : List String) (d : Declaration),
      x ∈ (names.foldl dependsOn d).dependencies ↔ x ∈ d.dependencies ∨ x ∈ names := by
    intro names
    induction names with
    | nil => simp
    | cons name names ih =>
      intro d
      rw [List.foldl_cons, ih, (d.dependsOn_fields name).2.2.2, List.mem_cons, or_assoc]
  rw [make, (foldl_inherits_fields _ supertypes).2.2.2, hfold]
  simp

namespace Outline

variable {ds : List Declaration}

/-- No two declarations share an identity, and what they refer to is declared. -/
structure Closed (ds : List Declaration) : Prop where
  nodup : (ds.map Declaration.identity).Nodup
  declared : ∀ d ∈ ds, ∀ target ∈ d.dependencies, target ∈ ds.map Declaration.identity

theorem linked_calls (h : (ds.map Declaration.identity).Nodup) {source target : String} :
    Graph.Linked (ofList ds).calls source target ↔ ∃ d ∈ ds, d.identity = source ∧ target ∈ d.dependencies := by
  simp only [Graph.Linked, calls, values_ofList, firsts_of_nodup h, List.mem_append, List.mem_map, reduceCtorEq,
    and_false, exists_false, false_or, List.mem_flatMap]
  constructor
  · rintro (⟨d, hd, x, hx, he⟩ | ⟨d, hd, x, hx, he⟩) <;>
    · unfold referenceCall at he
      split at he <;> cases he
      exact ⟨d, hd, rfl, hx⟩
  · rintro ⟨d, hd, rfl, hx⟩
    by_cases hsuper : d.isSupertype target = true
    · exact Or.inr ⟨d, hd, target, hx, if_pos hsuper⟩
    · exact Or.inl ⟨d, hd, target, hx, if_neg hsuper⟩

theorem identities_of_nodup (h : (ds.map Declaration.identity).Nodup) : identities ds = ds.map Declaration.identity :=
  eraseDups_of_nodup h

theorem Closed.names_graph (h : Closed ds) : (ofList ds).graph.nodes.names = ds.map Declaration.identity := by
  -- no call mentions another name, so there is nothing to trim
  have hwithin : Graph.trim (identities ds) (ofList ds).calls = (ofList ds).calls := by
    refine List.filter_eq_self.mpr fun c hc => ?_
    rw [calls, List.mem_append, List.mem_map, List.mem_flatMap, values_ofList, firsts_of_nodup h.nodup] at hc
    rcases hc with ⟨name, -, rfl⟩ | ⟨d, hd, hc⟩
    · rfl
    · obtain ⟨target, htarget, rfl⟩ := List.mem_map.mp hc
      rw [isWithin_referenceCall, List.contains_iff_mem, identities_of_nodup h.nodup]
      exact h.declared d hd target htarget
  have hmentioned := (declares_calls ds).mentioned_trim
  rw [hwithin, identities_of_nodup h.nodup] at hmentioned
  rw [(ofList ds).represents.names, hmentioned]

theorem Closed.get?_of_mem (h : Closed ds) {d : Declaration} (hd : d ∈ ds) :
    (ofList ds).declarations.get? d.identity = some d := by
  rw [get?_ofList, find?_of_nodup h.nodup hd]

/-- The declarations come as their identities are ordered, none left out. -/
theorem Closed.map_identity_ordered (h : Closed ds) :
    (ofList ds).ordered.map Declaration.identity = (ofList ds).graph.order := by
  rw [ordered, List.map_filterMap]
  refine (List.filterMap_congr fun name hname => ?_).trans List.filterMap_some
  rw [(ofList ds).represents.order_perm.mem_iff, h.names_graph, List.mem_map] at hname
  obtain ⟨d, hd, rfl⟩ := hname
  rw [h.get?_of_mem hd, Option.map_some]

end Outline

end SchemaModels
