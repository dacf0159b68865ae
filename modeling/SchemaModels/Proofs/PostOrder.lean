import SchemaModels.Proofs.Order

/-! Where no two nodes lie on a circle together, every node is its own leader, and the order of a graph is
the depth-first post-order. -/

namespace SchemaModels
set_option autoImplicit false

open Relation

namespace Edges

theorem order_eq_postOrder {table : Array Edges} (h : Inside table)
    (hacyclic : ∀ a < table.size, ∀ b < table.size, Mutual (next table) a b → a = b) :
    order table = postOrder table := by
  -- every node leads a component of its own
  have hleaders : leaders (next table) (postOrder table) = postOrder table := by
    classical
    refine List.pwFilter_eq_self.mpr ((postOrder_visits h).nodup.imp_of_mem fun ha hb hne hmutual => hne ?_)
    exact hacyclic _ ((mem_postOrder h _).mp ha) _ ((mem_postOrder h _).mp hb) hmutual
  have hclass : ∀ node ∈ postOrder table, arrange (strictNext table) (classOf (next table) table.size node) = [node] := by
    intro node hnode
    have hbelow := (mem_postOrder h node).mp hnode
    have hsingle : classOf (next table) table.size node = [node] := by
      refine List.perm_singleton.mp ((List.perm_ext_iff_of_nodup (List.nodup_range.sublist (classOf_sublist ..))
        (List.nodup_singleton node)).mpr fun x => ?_)
      rw [mem_classOf, List.mem_singleton]
      constructor
      · rintro ⟨hx, hmutual⟩
        exact (hacyclic node hbelow x hx hmutual).symm
      · rintro rfl
        exact ⟨hbelow, Mutual.refl x⟩
    rw [hsingle, arrange_singleton]
  rw [← flatten_blocks h, blocks, hleaders, List.map_congr_left hclass]
  rw [← List.flatMap_def, List.flatMap_singleton']

end Edges

/-! ## Names -/

namespace Graph

/-- The names mentioned that no call links to another, in order of first mention. -/
def roots (calls : List Call) : List String :=
  (mentioned calls).filter fun name => (mentioned calls).all fun source => !(targets calls source).contains name

/-- Walks start from the names to which none is linked, then from all names. -/
theorem Represents.map_name_starts {calls : List Call} {g : Graph} (h : Represents calls g) :
    (Edges.starts g.edges).map g.name = roots calls ++ mentioned calls := by
  have hroot : ∀ i ∈ List.range g.edges.size, ((g.edges[i]?.getD {}).incoming == 0) =
      (mentioned calls).all fun source => !(targets calls source).contains (g.name i) := by
    intro i hi
    obtain ⟨hmem, hindex⟩ := g.index_name (List.mem_range.mp hi)
    have hedges := g.getElem?_edges hmem
    rw [hindex] at hedges
    rw [hedges, h.incoming, Bool.eq_iff_iff, beq_iff_eq, linkCount, List.countP_eq_zero, List.all_eq_true]
    simp only [Bool.not_eq_true, Bool.not_eq_true']
  rw [Edges.starts, List.map_append, map_name_range, h.names, List.filter_congr hroot, roots, ← h.names,
    ← map_name_range, List.filter_map]
  rfl

theorem Represents.visits_postOrder {calls : List Call} {g : Graph} (h : Represents calls g) :
    Visits (targets calls) [] (roots calls ++ mentioned calls) ((Edges.postOrder g.edges).map g.name) := by
  have hinj : Set.InjOn g.name {i | i < g.edges.size} := by
    intro i hi j hj he
    rw [← (g.index_name hi).2, ← (g.index_name hj).2, he]
  have hnamed : ∀ i ∈ {i | i < g.edges.size}, targets calls (g.name i) = (Edges.next g.edges i).map g.name := by
    intro i hi
    obtain ⟨hmem, hindex⟩ := g.index_name hi
    have hnext := h.next_index hmem
    rw [hindex] at hnext
    rw [hnext, map_name_map_index g fun name hname => h.target_mem hname]
  have hwalk := (Edges.postOrder_visits h.inside).map hinj (fun i _ => h.inside i) hnamed (by simp) fun i hi =>
    Edges.lt_of_mem_starts hi
  rwa [h.map_name_starts] at hwalk

theorem Represents.eq_of_mutual {calls : List Call} {g : Graph} (h : Represents calls g)
    (hacyclic : ∀ a b, SameComponent calls a b → a = b) :
    ∀ i < g.edges.size, ∀ j < g.edges.size, Mutual (Edges.next g.edges) i j → i = j := by
  intro i hi j hj hmutual
  obtain ⟨hmemi, hindexi⟩ := g.index_name hi
  obtain ⟨hmemj, hindexj⟩ := g.index_name hj
  rw [← hindexi, ← hindexj, ← h.sameComponent_iff hmemi hmemj] at hmutual
  rw [← hindexi, ← hindexj, hacyclic _ _ hmutual]

/-- Where the only circles are names linked to themselves, the order is the depth-first post-order that
starts from the names to which none is linked, then from all names, and follows links, each in order
of first mention. -/
theorem order_eq_visits (calls : List Call) (hacyclic : ∀ a b, SameComponent calls a b → a = b) (row : List String) :
    Visits (targets calls) [] (roots calls ++ mentioned calls) row ↔ row = (ofCalls calls).order := by
  have h := ofCalls_represents calls
  have horder : Visits (targets calls) [] (roots calls ++ mentioned calls) (ofCalls calls).order := by
    rw [Graph.order, Edges.order_eq_postOrder h.inside (h.eq_of_mutual hacyclic)]
    exact h.visits_postOrder
  exact ⟨fun hrow => hrow.unique horder, fun heq => heq ▸ horder⟩

/-- A shared base that is linked to itself, two types above it and one apart. -/
theorem order_eq_visits_shared :
    let calls := [Call.dependency "Post" "Node", .supertype "Comment" "Post", .dependency "Comment" "Node",
      .dependency "Node" "Node", .node "Tag"]
    (∀ a b, SameComponent calls a b → a = b) ∧
      ∀ row, Visits (targets calls) [] (roots calls ++ mentioned calls) row ↔ row = (ofCalls calls).order := by
  intro calls
  have hlink : ∀ a b, Linked calls a b → a = b ∨
      ["Node", "Post", "Comment"].idxOf b < ["Node", "Post", "Comment"].idxOf a := by
    intro a b hl
    simp only [Linked, calls, List.mem_cons, Call.dependency.injEq, Call.supertype.injEq, reduceCtorEq, false_or,
      or_false, List.not_mem_nil] at hl
    rcases hl with (⟨rfl, rfl⟩ | ⟨rfl, rfl⟩ | ⟨rfl, rfl⟩) | ⟨rfl, rfl⟩
    · exact Or.inr (by decide)
    · exact Or.inr (by decide)
    · exact Or.inl rfl
    · exact Or.inr (by decide)
  have hway : ∀ a b, ReflTransGen (Linked calls) a b → a = b ∨
      ["Node", "Post", "Comment"].idxOf b < ["Node", "Post", "Comment"].idxOf a := by
    intro a b hab
    induction hab with
    | refl => exact Or.inl rfl
    | tail _ hl ih =>
      rcases hlink _ _ hl with rfl | hlt
      · exact ih
      · rcases ih with rfl | hlt'
        · exact Or.inr hlt
        · exact Or.inr (hlt.trans hlt')
  have hacyclic : ∀ a b, SameComponent calls a b → a = b := by
    intro a b hab
    rcases hway a b hab.1 with rfl | hlt
    · rfl
    · exact (hway b a hab.2).elim Eq.symm fun hlt' => absurd (hlt.trans hlt') (Nat.lt_irrefl _)
  exact ⟨hacyclic, order_eq_visits calls hacyclic⟩

end Graph

end SchemaModels
