import Mathlib.Data.List.Pairwise
import Mathlib.Data.Set.Function
import Mathlib.Logic.Relation

/-! Ways and walks over numbered nodes. `Mutual` says that two nodes lead to each other; the nodes that do form a
class. `Visits` is the plain recursive depth-first walk as a relation: it says which nodes a walk finishes, in
which order. In a row of nodes each class has a leader, its last member. -/

namespace SchemaModels
set_option autoImplicit false

open Relation

/-! ## Reachability -/

/-- Steps lead from the first node to the second. -/
def Reaches (next : Nat → List Nat) : Nat → Nat → Prop :=
  ReflTransGen fun a b => b ∈ next a

/-- Whether two nodes reach each other. -/
def Mutual (next : Nat → List Nat) (a b : Nat) : Prop :=
  Reaches next a b ∧ Reaches next b a

section

variable {next : Nat → List Nat} {a b c : Nat}

theorem Reaches.refl (a : Nat) : Reaches next a a :=
  ReflTransGen.refl

/-- A set that steps never leave holds all that is reached from it. -/
theorem Reaches.mem_of_closed (inside : Set Nat) (h : Reaches next a b)
    (hinside : ∀ x ∈ inside, ∀ y ∈ next x, y ∈ inside) (ha : a ∈ inside) : b ∈ inside := by
  induction h with
  | refl => exact ha
  | tail _ hstep ih => exact hinside _ ih _ hstep

namespace Mutual

theorem refl (a : Nat) : Mutual next a a :=
  ⟨Reaches.refl a, Reaches.refl a⟩

theorem symm (h : Mutual next a b) : Mutual next b a :=
  ⟨h.2, h.1⟩

theorem trans (hab : Mutual next a b) (hbc : Mutual next b c) : Mutual next a c :=
  ⟨ReflTransGen.trans hab.1 hbc.1, ReflTransGen.trans hbc.2 hab.2⟩

end Mutual

end

/-! ## Classes -/

open Classical in
/-- The nodes below `size` that a node reaches and is reached from, by number. -/
noncomputable def classOf (next : Nat → List Nat) (size node : Nat) : List Nat :=
  (List.range size).filter fun x => Mutual next node x

theorem mem_classOf {next : Nat → List Nat} {size node x : Nat} :
    x ∈ classOf next size node ↔ x < size ∧ Mutual next node x := by
  simp [classOf]

theorem classOf_sublist (next : Nat → List Nat) (size node : Nat) :
    (classOf next size node).Sublist (List.range size) :=
  List.filter_sublist

open Classical in
/-- The last node of each class in a row. -/
noncomputable def leaders (next : Nat → List Nat) (row : List Nat) : List Nat :=
  row.pwFilter fun a b => ¬ Mutual next a b

theorem leaders_cons_of_free {next : Nat → List Nat} {row : List Nat} {node : Nat}
    (h : ∀ leader ∈ leaders next row, ¬ Mutual next node leader) :
    leaders next (node :: row) = node :: leaders next row := by
  classical
  exact List.pwFilter_cons_of_pos h

theorem leaders_cons_of_led {next : Nat → List Nat} {row : List Nat} {node leader : Nat}
    (hleader : leader ∈ leaders next row) (h : Mutual next node leader) :
    leaders next (node :: row) = leaders next row := by
  classical
  exact List.pwFilter_cons_of_neg fun hall => hall leader hleader h

theorem mem_of_mem_leaders {next : Nat → List Nat} {row : List Nat} {leader : Nat} (h : leader ∈ leaders next row) :
    leader ∈ row := by
  classical
  exact List.pwFilter_subset row h

theorem exists_leader {next : Nat → List Nat} {row : List Nat} {x : Nat} (h : x ∈ row) :
    ∃ leader ∈ leaders next row, Mutual next x leader := by
  induction row with
  | nil => exact absurd h List.not_mem_nil
  | cons node row ih =>
    by_cases hfree : ∀ leader ∈ leaders next row, ¬ Mutual next node leader
    · rw [leaders_cons_of_free hfree]
      rcases List.mem_cons.mp h with rfl | h
      · exact ⟨x, List.mem_cons_self, Mutual.refl x⟩
      · obtain ⟨leader, hleader, hmutual⟩ := ih h
        exact ⟨leader, List.mem_cons_of_mem _ hleader, hmutual⟩
    · push Not at hfree
      obtain ⟨leader, hleader, hmutual⟩ := hfree
      rw [leaders_cons_of_led hleader hmutual]
      rcases List.mem_cons.mp h with rfl | h
      · exact ⟨leader, hleader, hmutual⟩
      · exact ih h

/-- Nodes of different classes, each behind all others of its class in the row, are the leaders. -/
theorem leaders_eq {next : Nat → List Nat} {row heads : List Nat} (hnodup : row.Nodup) (hsub : heads.Sublist row)
    (hapart : heads.Pairwise fun head later => ¬ Mutual next head later)
    (hled : ∀ x ∈ row, x ∈ heads ∨ ∃ head ∈ heads, Mutual next x head ∧ [x, head].Sublist row) :
    leaders next row = heads := by
  induction row generalizing heads with
  | nil => rw [List.sublist_nil.mp hsub]; rfl
  | cons node row ih =>
    obtain ⟨hnode, hnodup⟩ := List.nodup_cons.mp hnodup
    -- what leads a later node is behind it and so in the rest of the row
    have hlater : ∀ {x head : Nat}, x ∈ row → [x, head].Sublist (node :: row) →
        head ≠ node ∧ [x, head].Sublist row := by
      intro x head hx hpair
      have hrest : [x, head].Sublist row := by
        cases hpair with
        | cons _ h => exact h
        | cons_cons _ h => exact absurd hx hnode
      refine ⟨?_, hrest⟩
      rintro rfl
      exact hnode (hrest.subset (by simp))
    cases hsub with
    | cons _ hsub =>
      have hrest : leaders next row = heads := ih hnodup hsub hapart fun x hx =>
        (hled x (List.mem_cons_of_mem _ hx)).imp_right fun ⟨head, hhead, hmutual, hpair⟩ =>
          ⟨head, hhead, hmutual, (hlater hx hpair).2⟩
      rcases hled node List.mem_cons_self with hmem | ⟨head, hhead, hmutual, -⟩
      · exact absurd (hsub.subset hmem) hnode
      · rw [leaders_cons_of_led (hrest ▸ hhead) hmutual, hrest]
    | @cons_cons heads _ _ hsub =>
      obtain ⟨hfree, hapart⟩ := List.pairwise_cons.mp hapart
      have hrest : leaders next row = heads := by
        refine ih hnodup hsub hapart fun x hx => ?_
        have hne : x ≠ node := fun he => hnode (he ▸ hx)
        rcases hled x (List.mem_cons_of_mem _ hx) with hmem | ⟨head, hhead, hmutual, hpair⟩
        · exact Or.inl ((List.mem_cons.mp hmem).resolve_left hne)
        · obtain ⟨hhead', hpair⟩ := hlater hx hpair
          exact Or.inr ⟨head, (List.mem_cons.mp hhead).resolve_left hhead', hmutual, hpair⟩
      rw [leaders_cons_of_free (hrest ▸ hfree), hrest]

/-! ## Walks as a relation -/

/-- A walk from each of some nodes in turn. It passes over a node that was seen; any other node it
enters, goes on to what the node leads to, and then finishes. The last list holds the nodes finished. -/
inductive Visits {α : Type} (next : α → List α) : List α → List α → List α → Prop
  | done (seen : List α) : Visits next seen [] []
  | pass {seen : List α} {node : α} {nodes row : List α} (hmem : node ∈ seen) (rest : Visits next seen nodes row) :
      Visits next seen (node :: nodes) row
  | enter {seen : List α} {node : α} {nodes below row : List α} (hmem : node ∉ seen)
      (inner : Visits next (node :: seen) (next node) below)
      (rest : Visits next (below ++ node :: seen) nodes row) :
      Visits next seen (node :: nodes) (below ++ node :: row)

namespace Visits

variable {α β : Type} {next : α → List α} {seen nodes row : List α}

theorem unique (h : Visits next seen nodes row) {other : List α} (hother : Visits next seen nodes other) :
    row = other := by
  induction h generalizing other with
  | done => cases hother; rfl
  | pass hmem _ ih =>
    cases hother with
    | pass _ rest => exact ih rest
    | enter hnot => exact absurd hmem hnot
  | enter hnot _ _ ihInner ihRest =>
    cases hother with
    | pass hmem => exact absurd hmem hnot
    | enter _ inner rest =>
      obtain rfl := ihInner inner
      rw [ihRest rest]

/-- What was seen counts, not in which order. -/
theorem of_seen (h : Visits next seen nodes row) {other : List α} (hseen : ∀ x, x ∈ seen ↔ x ∈ other) :
    Visits next other nodes row := by
  induction h generalizing other with
  | done => exact .done other
  | pass hmem _ ih => exact .pass ((hseen _).mp hmem) (ih hseen)
  | enter hmem _ _ ihInner ihRest =>
    refine .enter (fun hn => hmem ((hseen _).mpr hn)) (ihInner fun x => ?_) (ihRest fun x => ?_)
    · simp only [List.mem_cons, hseen]
    · simp only [List.mem_append, List.mem_cons, hseen]

theorem not_mem_seen (h : Visits next seen nodes row) : ∀ x ∈ row, x ∉ seen := by
  induction h with
  | done => simp
  | pass _ _ ih => exact ih
  | enter hmem _ _ ihInner ihRest =>
    refine List.forall_mem_append.mpr ⟨fun x hx hseen => ?_, List.forall_mem_cons.mpr ⟨hmem, fun x hx hseen => ?_⟩⟩
    · exact ihInner x hx (List.mem_cons_of_mem _ hseen)
    · exact ihRest x hx (List.mem_append_right _ (List.mem_cons_of_mem _ hseen))

theorem nodup (h : Visits next seen nodes row) : row.Nodup := by
  induction h with
  | done => exact List.nodup_nil
  | pass _ _ ih => exact ih
  | @enter seen node nodes below row _ inner rest ihInner ihRest =>
    have hlater : ∀ x ∈ row, x ∉ below ++ node :: seen := rest.not_mem_seen
    refine List.nodup_append.mpr ⟨ihInner, List.nodup_cons.mpr ⟨fun hn => ?_, ihRest⟩, ?_⟩
    · exact hlater node hn (List.mem_append_right _ List.mem_cons_self)
    · rintro x hx y hy rfl
      rcases List.mem_cons.mp hy with rfl | hy
      · exact inner.not_mem_seen x hx List.mem_cons_self
      · exact hlater x hy (List.mem_append_left _ hx)

theorem mem_of_start (h : Visits next seen nodes row) : ∀ x ∈ nodes, x ∈ row ∨ x ∈ seen := by
  induction h with
  | done => simp
  | pass hmem _ ih => exact List.forall_mem_cons.mpr ⟨.inr hmem, ih⟩
  | enter _ _ _ _ ihRest =>
    refine List.forall_mem_cons.mpr ⟨.inl (by simp), fun x hx => ?_⟩
    have hx := ihRest x hx
    simp only [List.mem_append, List.mem_cons] at hx ⊢
    tauto

/-- A walk from one node and a walk from others behind it are one walk. -/
theorem cons {node : α} {row' : List α} (h : Visits next seen [node] row)
    (hrest : Visits next (row ++ seen) nodes row') : Visits next seen (node :: nodes) (row ++ row') := by
  cases h with
  | pass hmem hnil =>
    cases hnil
    exact .pass hmem hrest
  | enter hmem inner hnil =>
    cases hnil
    rw [List.append_assoc, List.singleton_append] at hrest ⊢
    exact .enter hmem inner hrest

/-- Steps stay in a set of nodes, and so does a walk that starts in it. -/
theorem mem_of_closed {inside : Set α} (hnext : ∀ a ∈ inside, ∀ b ∈ next a, b ∈ inside)
    (h : Visits next seen nodes row) (hnodes : ∀ x ∈ nodes, x ∈ inside) : ∀ x ∈ row, x ∈ inside := by
  induction h with
  | done => simp
  | pass _ _ ih => exact ih (List.forall_mem_cons.mp hnodes).2
  | enter _ _ _ ihInner ihRest =>
    obtain ⟨hnode, hnodes⟩ := List.forall_mem_cons.mp hnodes
    exact List.forall_mem_append.mpr ⟨ihInner (hnext _ hnode), List.forall_mem_cons.mpr ⟨hnode, ihRest hnodes⟩⟩

/-- Nodes may be renamed, as long as those that the walk can meet keep different names. -/
theorem map {f : α → β} {named : β → List β} {inside : Set α} (hinj : Set.InjOn f inside)
    (hnext : ∀ a ∈ inside, ∀ b ∈ next a, b ∈ inside) (hnamed : ∀ a ∈ inside, named (f a) = (next a).map f)
    (h : Visits next seen nodes row) (hseen : ∀ x ∈ seen, x ∈ inside) (hnodes : ∀ x ∈ nodes, x ∈ inside) :
    Visits named (seen.map f) (nodes.map f) (row.map f) := by
  induction h with
  | done => exact .done _
  | pass hmem _ ih => exact .pass (List.mem_map_of_mem hmem) (ih hseen (List.forall_mem_cons.mp hnodes).2)
  | @enter seen node nodes below row hmem inner rest ihInner ihRest =>
    obtain ⟨hnode, hnodes⟩ := List.forall_mem_cons.mp hnodes
    have hbelow := inner.mem_of_closed hnext (hnext node hnode)
    have hseen' : ∀ x ∈ node :: seen, x ∈ inside := List.forall_mem_cons.mpr ⟨hnode, hseen⟩
    have hfresh : f node ∉ seen.map f := by
      intro hn
      obtain ⟨x, hx, he⟩ := List.mem_map.mp hn
      exact hmem (hinj (hseen x hx) hnode he ▸ hx)
    have hrest := ihRest (List.forall_mem_append.mpr ⟨hbelow, hseen'⟩) hnodes
    have hinner := ihInner hseen' (hnext node hnode)
    rw [← hnamed node hnode] at hinner
    rw [List.map_append, List.map_cons] at hrest ⊢
    exact .enter hfresh hinner hrest

end Visits

end SchemaModels
