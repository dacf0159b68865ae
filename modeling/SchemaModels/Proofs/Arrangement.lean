import Mathlib.Data.List.Sublists
import SchemaModels.Graph.Order

/-! Arranging the nodes of a component. The first ready node is taken again and again. As long as the
strict edges among the nodes do not run in a circle there is always a ready one, so that no node comes
before one of its strict targets; and since the first is taken, no other such row is smaller. -/

namespace SchemaModels
set_option autoImplicit false

/-! ## Ready nodes -/

/-- One strict target of another, itself apart. -/
def Awaits (strict : Nat → List Nat) (target source : Nat) : Prop :=
  target ∈ strict source ∧ target ≠ source

/-- One strict target of another, both among some nodes. -/
def AwaitsIn (strict : Nat → List Nat) (nodes : List Nat) (target source : Nat) : Prop :=
  target ∈ nodes ∧ source ∈ nodes ∧ Awaits strict target source

theorem isReady_iff {strict : Nat → List Nat} {waiting : List Nat} {node : Nat} :
    isReady strict waiting node = true ↔ ∀ target ∈ waiting, ¬ Awaits strict target node := by
  simp only [isReady, List.all_eq_true, Bool.or_eq_true, beq_iff_eq, Bool.not_eq_true', Awaits,
    List.contains_eq_mem, decide_eq_false_iff_not]
  constructor
  · rintro h target hwait ⟨hmem, hne⟩
    exact (h target hmem).elim hne fun hnot => hnot hwait
  · intro h target hmem
    by_contra hnot
    rw [not_or, not_not] at hnot
    exact h target hnot.2 ⟨hmem, hnot.1⟩

/-- While a node waits whose strict targets among the waiting nodes do not run in a circle, some waiting
node is ready. -/
theorem exists_ready {strict : Nat → List Nat} {waiting : List Nat} {node : Nat}
    (hacc : Acc (AwaitsIn strict waiting) node) (hnode : node ∈ waiting) :
    ∃ m ∈ waiting, isReady strict waiting m = true := by
  induction hacc with
  | intro node _ ih =>
    by_cases hready : isReady strict waiting node = true
    · exact ⟨node, hnode, hready⟩
    · -- go on to a target that it waits for
      rw [isReady_iff] at hready
      push Not at hready
      obtain ⟨target, hwait, hawaits⟩ := hready
      exact ih target ⟨hwait, hnode, hawaits⟩ hwait

theorem find?_ready {strict : Nat → List Nat} {waiting : List Nat} {m : Nat} (hm : m ∈ waiting)
    (hready : isReady strict waiting m = true) :
    ∃ first, waiting.find? (isReady strict waiting) = some first ∧ isReady strict waiting first = true := by
  cases hfind : waiting.find? (isReady strict waiting) with
  | none => exact absurd hready (List.find?_eq_none.mp hfind m hm)
  | some first => exact ⟨first, rfl, List.find?_some hfind⟩

/-! ## Rows of nodes -/

theorem arrange_perm (strict : Nat → List Nat) (waiting : List Nat) :
    (arrange strict waiting).Perm waiting := by
  fun_induction arrange strict waiting with
  | case1 => exact List.Perm.nil
  | case2 node rest chosen ih =>
    have hmem : chosen ∈ node :: rest := by
      cases h : (node :: rest).find? (isReady strict (node :: rest)) with
      | none => simp [chosen, h]
      | some m => simpa [chosen, h] using List.mem_of_find?_eq_some h
    exact (ih.cons chosen).trans (List.perm_cons_erase hmem).symm

theorem arrange_singleton (strict : Nat → List Nat) (node : Nat) : arrange strict [node] = [node] :=
  List.perm_singleton.mp (arrange_perm strict [node])

/-- A strict target whose own strict targets do not run in a circle comes before its source. -/
theorem arrange_target_first {strict : Nat → List Nat} {waiting : List Nat} {source target : Nat}
    (hawaits : Awaits strict target source) (hacc : Acc (Awaits strict) target)
    (hs : source ∈ waiting) (ht : target ∈ waiting) :
    [target, source].Sublist (arrange strict waiting) := by
  fun_induction arrange strict waiting with
  | case1 => cases ht
  | case2 node rest chosen ih =>
    have hinner : Subrelation (AwaitsIn strict (node :: rest)) (Awaits strict) := fun h => h.2.2
    obtain ⟨m, hm, hready⟩ := exists_ready (hinner.accessible hacc) ht
    obtain ⟨first, hfind, hfirst⟩ := find?_ready hm hready
    have hchosen : chosen = first := by simp only [chosen, hfind, Option.getD_some]
    -- the source is not ready while its target waits
    have hsource : source ≠ chosen := by
      rintro rfl
      exact isReady_iff.mp (hchosen ▸ hfirst) target ht hawaits
    have hleft : source ∈ (node :: rest).erase chosen := (List.mem_erase_of_ne hsource).mpr hs
    by_cases htarget : target = chosen
    · rw [htarget]
      exact (List.singleton_sublist.mpr ((arrange_perm _ _).mem_iff.mpr hleft)).cons_cons chosen
    · exact (ih hleft ((List.mem_erase_of_ne htarget).mpr ht)).cons chosen

/-- A row of nodes in which none comes before one of its strict targets. -/
def TargetsFirst (strict : Nat → List Nat) (row : List Nat) : Prop :=
  row.Pairwise fun earlier later => ¬ Awaits strict later earlier

/-- Where strict targets among the nodes do not run in a circle, they all come before their sources. -/
theorem arrange_targetsFirst {strict : Nat → List Nat} {waiting : List Nat}
    (hwf : WellFounded (AwaitsIn strict waiting)) : TargetsFirst strict (arrange strict waiting) := by
  fun_induction arrange strict waiting with
  | case1 => exact List.Pairwise.nil
  | case2 node rest chosen ih =>
    obtain ⟨m, hm, hready⟩ := exists_ready (hwf.apply node) List.mem_cons_self
    obtain ⟨first, hfind, hfirst⟩ := find?_ready hm hready
    have hchosen : chosen = first := by simp only [chosen, hfind, Option.getD_some]
    have hsub : Subrelation (AwaitsIn strict ((node :: rest).erase chosen)) (AwaitsIn strict (node :: rest)) :=
      fun h => ⟨List.mem_of_mem_erase h.1, List.mem_of_mem_erase h.2.1, h.2.2⟩
    refine List.Pairwise.cons (fun later hlater => ?_) (ih (hsub.wf hwf))
    have hwait := List.mem_of_mem_erase ((arrange_perm _ _).mem_iff.mp hlater)
    exact isReady_iff.mp (hchosen ▸ hfirst) later hwait

/-- Of all rows of the same nodes that put strict targets first, the arrangement is the least. -/
theorem arrange_least {strict : Nat → List Nat} {waiting : List Nat} (hsorted : waiting.Pairwise (· < ·))
    {row : List Nat} (hperm : row.Perm waiting) (hrow : TargetsFirst strict row) :
    arrange strict waiting = row ∨ List.Lex (· < ·) (arrange strict waiting) row := by
  fun_induction arrange strict waiting generalizing row with
  | case1 => exact Or.inl (List.perm_nil.mp hperm).symm
  | case2 node rest chosen ih =>
    cases row with
    | nil => exact absurd hperm.length_eq (by simp)
    | cons head tail =>
      -- the head of the other row is ready, so what is taken is not behind it
      rw [TargetsFirst, List.pairwise_cons] at hrow
      have hmem : head ∈ node :: rest := hperm.mem_iff.mp List.mem_cons_self
      have hready : isReady strict (node :: rest) head = true := by
        rw [isReady_iff]
        intro target htarget hawaits
        rcases List.mem_cons.mp (hperm.mem_iff.mpr htarget) with rfl | htail
        · exact hawaits.2 rfl
        · exact hrow.1 target htail hawaits
      obtain ⟨first, hfind, -⟩ := find?_ready hmem hready
      have hchosen : chosen = first := by simp only [chosen, hfind, Option.getD_some]
      have hle : chosen < head ∨ chosen = head := by
        obtain ⟨-, before, after, hsplit, hbefore⟩ := List.find?_eq_some_iff_append.mp hfind
        rw [hchosen]
        rw [hsplit] at hmem hsorted
        rcases List.mem_append.mp hmem with hfront | hback
        · exact absurd hready (by simpa using hbefore head hfront)
        · rcases List.mem_cons.mp hback with rfl | hafter
          · exact Or.inr rfl
          · exact Or.inl ((List.pairwise_cons.mp (List.pairwise_append.mp hsorted).2.1).1 head hafter)
      rcases hle with hlt | rfl
      · exact Or.inr (List.Lex.rel hlt)
      · have htail : tail.Perm ((node :: rest).erase chosen) :=
          (List.perm_cons chosen).mp (hperm.trans (List.perm_cons_erase hmem))
        rcases ih (hsorted.sublist List.erase_sublist) htail hrow.2 with heq | hlex
        · exact Or.inl (congrArg (chosen :: ·) heq)
        · exact Or.inr (List.Lex.cons hlex)

/-- Nodes without strict edges between them stay as they are. -/
theorem arrange_of_free {strict : Nat → List Nat} {waiting : List Nat}
    (hfree : ∀ target source, ¬ AwaitsIn strict waiting target source) : arrange strict waiting = waiting := by
  fun_induction arrange strict waiting with
  | case1 => rfl
  | case2 node rest chosen ih =>
    have hready : isReady strict (node :: rest) node = true := by
      rw [isReady_iff]
      exact fun target htarget hawaits => hfree target node ⟨htarget, List.mem_cons_self, hawaits⟩
    have hchosen : chosen = node := by
      simp only [chosen, List.find?_cons_of_pos hready, Option.getD_some]
    rw [hchosen, List.erase_cons_head] at ih ⊢
    rw [ih fun target source h => hfree target source
      ⟨List.mem_cons_of_mem _ h.1, List.mem_cons_of_mem _ h.2.1, h.2.2⟩]

end SchemaModels
