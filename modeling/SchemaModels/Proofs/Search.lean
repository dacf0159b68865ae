import Mathlib.Data.List.Nodup
import Mathlib.Data.List.Sort
import SchemaModels.Graph.Search
import SchemaModels.Proofs.Walk

/-! What the search for components finds. It finishes nodes in the order of the plain recursive walk, which
`Visits` describes, and closes a class of mutually reachable nodes when it leaves the last of them, so the
order is made of whole classes, one for each leader of the walk.

The calls under way cut the stack into levels. The level of a call holds its node and, above it, what was
entered from the node and stayed open. All members of a level reach each other, and what they lead to is in
the order or on the stack, not below the node's lowlink. -/

namespace SchemaModels
set_option autoImplicit false

open Relation

namespace Search

variable {next : Nat → List Nat} {emit : List Nat → List Nat} {size : Nat} {s : Search}

/-! ## What one update changes -/

theorem getD_setIfInBounds {α : Type} {values : Array α} {i : Nat} (h : i < values.size) (value default : α)
    (j : Nat) : (values.setIfInBounds i value)[j]?.getD default = if j = i then value else values[j]?.getD default := by
  rw [Array.getElem?_setIfInBounds]
  grind

theorem number?_enter {node : Nat} (h : node < s.index.size) (v : Nat) :
    (s.enter node).number? v = if v = node then some s.nextIndex else s.number? v :=
  getD_setIfInBounds h _ _ v

theorem low_enter {node : Nat} (h : node < s.lowlink.size) (v : Nat) :
    (s.enter node).low v = if v = node then s.nextIndex else s.low v :=
  getD_setIfInBounds h _ _ v

theorem isOpen_enter {node : Nat} (h : node < s.onStack.size) (v : Nat) :
    (s.enter node).isOpen v = if v = node then true else s.isOpen v :=
  getD_setIfInBounds h _ _ v

theorem low_lower {node : Nat} (h : node < s.lowlink.size) (number v : Nat) :
    (s.lower node number).low v = if v = node then min (s.low node) number else s.low v :=
  getD_setIfInBounds h _ _ v

theorem low_lower_of_ne {node v : Nat} (h : v ≠ node) (number : Nat) : (s.lower node number).low v = s.low v := by
  rw [low, lower, Array.getElem?_setIfInBounds_ne h.symm, low]

theorem lower_of_le {node number : Nat} (h : s.low node ≤ number) : s.lower node number = s := by
  have hsame : s.lowlink.setIfInBounds node (s.low node) = s.lowlink := by
    refine Array.ext_getElem? fun i => ?_
    rw [Array.getElem?_setIfInBounds, low]
    grind
  rw [lower, Nat.min_eq_left h, hsame]

theorem popTo_append {root : Nat} {above : List Nat} (h : root ∉ above) (below : List Nat) :
    popTo root (above ++ root :: below) = (above ++ [root], below) := by
  induction above with
  | nil => simp [popTo]
  | cons node above ih =>
    obtain ⟨hnode, habove⟩ := not_or.mp (mt List.mem_cons.mpr h)
    rw [List.cons_append, popTo, if_neg (Ne.symm hnode), ih habove]
    rfl

theorem mem_emit (hemit : ∀ nodes, (emit nodes).Perm nodes) {nodes : List Nat} {v : Nat} :
    v ∈ emit nodes.mergeSort ↔ v ∈ nodes :=
  ((hemit _).trans (List.mergeSort_perm _ _)).mem_iff

theorem getD_clear (nodes : List Nat) (flags : Array Bool) (v : Nat) :
    (nodes.foldl (fun flags node => flags.setIfInBounds node false) flags)[v]?.getD false =
      (flags[v]?.getD false && !nodes.contains v) := by
  induction nodes generalizing flags with
  | nil => simp
  | cons node nodes ih =>
    rw [List.foldl_cons, ih, Array.getElem?_setIfInBounds]
    grind

theorem size_clear (nodes : List Nat) (flags : Array Bool) :
    (nodes.foldl (fun flags node => flags.setIfInBounds node false) flags).size = flags.size := by
  induction nodes generalizing flags with
  | nil => rfl
  | cons node nodes ih => rw [List.foldl_cons, ih, Array.size_setIfInBounds]

/-! ## The tables -/

/-- The number of a node that was entered. -/
def rank (s : Search) (v : Nat) : Nat :=
  (s.number? v).getD 0

/-- The tables of a search agree with its stack and its order, and the stack goes down in rank. -/
structure Kept (size : Nat) (s : Search) : Prop where
  index_size : s.index.size = size
  lowlink_size : s.lowlink.size = size
  onStack_size : s.onStack.size = size
  number_lt : ∀ v number, s.number? v = some number → number < s.nextIndex
  entered_iff : ∀ v, s.number? v ≠ none ↔ v ∈ s.stack ∨ v ∈ s.order
  apart : ∀ v ∈ s.stack, v ∉ s.order
  sorted : s.stack.Pairwise fun a b => s.rank b < s.rank a
  isOpen_iff : ∀ v, s.isOpen v = true ↔ v ∈ s.stack

namespace Kept

theorem fresh (size : Nat) : Kept size (Search.fresh size) := by
  have hnumber : ∀ v, (Search.fresh size).number? v = none := fun v => by
    simp only [Search.fresh, number?, Array.getElem?_replicate]
    split <;> rfl
  refine ⟨by simp [Search.fresh], by simp [Search.fresh], by simp [Search.fresh], ?_, ?_, ?_, .nil, ?_⟩
  · intro v number h
    rw [hnumber] at h
    cases h
  · intro v
    rw [hnumber]
    simp [Search.fresh]
  · simp [Search.fresh]
  · intro v
    simp only [Search.fresh, isOpen, Array.getElem?_replicate]
    split <;> simp

theorem lt_size (h : Kept size s) {v : Nat} (hv : s.number? v ≠ none) : v < size := by
  rw [← h.index_size]
  by_contra hge
  exact hv (by rw [number?, Array.getElem?_eq_none (Nat.le_of_not_lt hge)]; rfl)

theorem number_of_mem (h : Kept size s) {v : Nat} (hv : v ∈ s.stack) : s.number? v = some (s.rank v) := by
  obtain ⟨number, hnumber⟩ := Option.ne_none_iff_exists'.mp ((h.entered_iff v).mpr (.inl hv))
  rw [rank, hnumber, Option.getD_some]

theorem rank_lt (h : Kept size s) {v : Nat} (hv : v ∈ s.stack) : s.rank v < s.nextIndex :=
  h.number_lt v _ (h.number_of_mem hv)

theorem stack_lt_size (h : Kept size s) {v : Nat} (hv : v ∈ s.stack) : v < size :=
  h.lt_size ((h.entered_iff v).mpr (.inl hv))

theorem lt_lowlink_size (h : Kept size s) {v : Nat} (hv : v ∈ s.stack) : v < s.lowlink.size :=
  h.lowlink_size ▸ h.stack_lt_size hv

theorem nodup (h : Kept size s) : s.stack.Nodup := by
  refine h.sorted.imp ?_
  rintro a b hlt rfl
  exact Nat.lt_irrefl _ hlt

theorem rank_enter {node v : Nat} (h : Kept size s) (hnode : node < size) (hv : v ≠ node) :
    (s.enter node).rank v = s.rank v := by
  rw [rank, number?_enter (h.index_size ▸ hnode), if_neg hv, rank]

theorem rank_enter_self {node : Nat} (h : Kept size s) (hnode : node < size) :
    (s.enter node).rank node = s.nextIndex := by
  rw [rank, number?_enter (h.index_size ▸ hnode), if_pos rfl, Option.getD_some]

theorem mem_cons_iff {node : Nat} {seen : List Nat} (h : Kept size s) (hnode : node < size)
    (hseen : ∀ x, x ∈ seen ↔ s.number? x ≠ none) (x : Nat) : x ∈ node :: seen ↔ (s.enter node).number? x ≠ none := by
  rw [number?_enter (h.index_size ▸ hnode), List.mem_cons, hseen]
  by_cases hx : x = node <;> simp [hx]

theorem enter {node : Nat} (h : Kept size s) (hnode : node < size) (hnew : s.number? node = none) :
    Kept size (s.enter node) := by
  have hnumber : ∀ v, (s.enter node).number? v = if v = node then some s.nextIndex else s.number? v :=
    number?_enter (h.index_size ▸ hnode)
  have hout : ¬ (node ∈ s.stack ∨ node ∈ s.order) := fun hin => (h.entered_iff node).mpr hin hnew
  have hne : ∀ v ∈ s.stack, v ≠ node := fun v hv he => hout (.inl (he ▸ hv))
  refine ⟨?_, ?_, ?_, fun v number hv => ?_, fun v => ?_, ?_, ?_, fun v => ?_⟩
  · simpa [Search.enter] using h.index_size
  · simpa [Search.enter] using h.lowlink_size
  · simpa [Search.enter] using h.onStack_size
  · rw [hnumber] at hv
    split at hv
    · cases hv
      exact Nat.lt_succ_self _
    · exact Nat.lt_succ_of_lt (h.number_lt v number hv)
  · have hold := h.entered_iff v
    rw [hnumber]
    simp only [Search.enter, List.mem_cons]
    split <;> simp_all
  · exact List.forall_mem_cons.mpr ⟨fun hin => hout (.inr hin), h.apart⟩
  · refine List.pairwise_cons.mpr ⟨fun v hv => ?_, h.sorted.imp_of_mem fun {a b} ha hb hlt => ?_⟩
    · rw [h.rank_enter_self hnode, h.rank_enter hnode (hne v hv)]
      exact h.rank_lt hv
    · rwa [h.rank_enter hnode (hne a ha), h.rank_enter hnode (hne b hb)]
  · have hold := h.isOpen_iff v
    rw [isOpen_enter (h.onStack_size ▸ hnode)]
    simp only [Search.enter, List.mem_cons]
    split <;> simp_all

theorem lower (h : Kept size s) (node number : Nat) : Kept size (s.lower node number) :=
  ⟨h.index_size, by simpa [Search.lower] using h.lowlink_size, h.onStack_size, h.number_lt, h.entered_iff, h.apart,
    h.sorted, h.isOpen_iff⟩

section

variable {root : Nat} {above below : List Nat}

theorem popTo_stack (h : Kept size s) (hstack : s.stack = above ++ root :: below) :
    popTo root s.stack = (above ++ [root], below) := by
  have hnodup := h.nodup
  rw [hstack] at hnodup ⊢
  exact popTo_append (fun hroot => (List.nodup_append.mp hnodup).2.2 root hroot root List.mem_cons_self rfl) below

theorem stack_close (h : Kept size s) (hstack : s.stack = above ++ root :: below) :
    (s.close emit root).stack = below := by
  rw [Search.close, h.popTo_stack hstack]

theorem order_close (h : Kept size s) (hstack : s.stack = above ++ root :: below) :
    (s.close emit root).order = s.order ++ emit (above ++ [root]).mergeSort := by
  rw [Search.close, h.popTo_stack hstack]

theorem isOpen_close (h : Kept size s) (hstack : s.stack = above ++ root :: below) (v : Nat) :
    (s.close emit root).isOpen v = (s.isOpen v && !(above ++ [root]).contains v) := by
  rw [isOpen, Search.close, h.popTo_stack hstack]
  exact getD_clear _ _ v

theorem close (h : Kept size s) (hemit : ∀ nodes, (emit nodes).Perm nodes)
    (hstack : s.stack = above ++ root :: below) : Kept size (s.close emit root) := by
  have hsplit : s.stack = (above ++ [root]) ++ below := by rw [hstack, List.append_assoc, List.singleton_append]
  have hdisjoint : ∀ v ∈ above ++ [root], ∀ w ∈ below, v ≠ w := (List.nodup_append.mp (hsplit ▸ h.nodup)).2.2
  have hmem : ∀ v, v ∈ s.stack ↔ v ∈ above ++ [root] ∨ v ∈ below := fun v => by rw [hsplit, List.mem_append]
  refine ⟨h.index_size, h.lowlink_size, (size_clear _ _).trans h.onStack_size, h.number_lt, fun v => ?_, fun v hv => ?_,
    ?_, fun v => ?_⟩
  · have hold := h.entered_iff v
    rw [hmem] at hold
    rw [h.stack_close hstack, h.order_close hstack, List.mem_append, mem_emit hemit]
    exact hold.trans (by tauto)
  · rw [h.stack_close hstack] at hv
    rw [h.order_close hstack, List.mem_append, mem_emit hemit]
    rintro (hin | hin)
    · exact h.apart v ((hmem v).mpr (.inr hv)) hin
    · exact hdisjoint v hin v hv rfl
  · rw [h.stack_close hstack]
    exact (List.pairwise_append.mp (hsplit ▸ h.sorted)).2.1
  · rw [h.isOpen_close hstack, h.stack_close hstack, Bool.and_eq_true, h.isOpen_iff, hmem, Bool.not_eq_true',
      List.contains_eq_mem, decide_eq_false_iff_not]
    constructor
    · rintro ⟨hin, hnot⟩
      exact hin.resolve_left hnot
    · exact fun hv => ⟨.inr hv, fun hin => hdisjoint v hin v hv rfl⟩

end

end Kept

/-! ## Levels of the stack -/

/-- Whether a node is in the order or on the stack at some rank or above it. -/
def Settled (s : Search) (bound v : Nat) : Prop :=
  v ∈ s.order ∨ v ∈ s.stack ∧ bound ≤ s.rank v

theorem Settled.mono {bound bound' v : Nat} (h : s.Settled bound v) (hle : bound' ≤ bound) : s.Settled bound' v :=
  h.imp_right fun hv => ⟨hv.1, hle.trans hv.2⟩

/-- The level of a call: the nodes entered from its node that stayed open, above the node. -/
structure Level (next : Nat → List Nat) (s : Search) (node position : Nat) (callers : List (Nat × Nat))
    (finished below : List Nat) : Prop where
  linked : ∀ caller ∈ callers.head?, node ∈ next caller.1
  classed : ∀ x ∈ finished, Mutual next node x
  low_le : s.low node ≤ s.rank node
  low_mem : ∃ u ∈ finished ++ node :: below, s.low node = s.rank u ∧ Reaches next node u
  seen : ∀ x ∈ finished, ∀ y ∈ next x, s.Settled (s.low node) y
  taken : ∀ y ∈ (next node).take position, s.Settled (s.low node) y

/-- The calls cut the stack into their levels. -/
inductive Levels (next : Nat → List Nat) (s : Search) : List (Nat × Nat) → List Nat → Prop
  | nil : Levels next s [] []
  | cons {node position : Nat} {callers : List (Nat × Nat)} {finished below : List Nat}
      (top : Level next s node position callers finished below) (rest : Levels next s callers below) :
      Levels next s ((node, position) :: callers) (finished ++ node :: below)

/-- A level is the same in a search that keeps its lowlink, its ranks and what is settled. -/
theorem Level.of_agree {s' : Search} {node position : Nat} {callers : List (Nat × Nat)} {finished below : List Nat}
    (h : Level next s node position callers finished below) (hlow : s'.low node = s.low node)
    (hrank : ∀ v ∈ finished ++ node :: below, s'.rank v = s.rank v)
    (hsettled : ∀ bound v, s.Settled bound v → s'.Settled bound v) :
    Level next s' node position callers finished below where
  linked := h.linked
  classed := h.classed
  low_le := by
    rw [hlow, hrank node (by simp)]
    exact h.low_le
  low_mem := by
    obtain ⟨u, hu, hlowu, hreach⟩ := h.low_mem
    exact ⟨u, hu, by rw [hlow, hlowu, hrank u hu], hreach⟩
  seen x hx y hy := by
    rw [hlow]
    exact hsettled _ y (h.seen x hx y hy)
  taken y hy := by
    rw [hlow]
    exact hsettled _ y (h.taken y hy)

/-- A lowlink may be lowered to the rank of a node on the stack that was reached. -/
theorem Level.lower {node position u : Nat} {callers : List (Nat × Nat)} {finished below : List Nat}
    (h : Level next s node position callers finished below) (hnode : node < s.lowlink.size)
    (hu : u ∈ finished ++ node :: below) (hreach : Reaches next node u) :
    Level next (s.lower node (s.rank u)) node position callers finished below := by
  have hself : (s.lower node (s.rank u)).low node = min (s.low node) (s.rank u) := by
    rw [low_lower hnode, if_pos rfl]
  have hle : (s.lower node (s.rank u)).low node ≤ s.low node := hself ▸ Nat.min_le_left _ _
  refine ⟨h.linked, h.classed, hle.trans h.low_le, ?_, fun x hx y hy => ?_, fun y hy => ?_⟩
  · rw [hself]
    rcases Nat.le_total (s.low node) (s.rank u) with hmin | hmin
    · rw [Nat.min_eq_left hmin]
      exact h.low_mem
    · rw [Nat.min_eq_right hmin]
      exact ⟨u, hu, rfl, hreach⟩
  · exact (h.seen x hx y hy).mono hle
  · exact (h.taken y hy).mono hle

/-- A level takes in what stayed open of a call that was made from it. -/
theorem Level.absorb {node position : Nat} {callers : List (Nat × Nat)} {segment finished below : List Nat}
    (h : Level next s node position callers finished below) (hclass : ∀ x ∈ segment, Mutual next node x)
    (hseen : ∀ x ∈ segment, ∀ y ∈ next x, s.Settled (s.low node) y) :
    Level next s node position callers (segment ++ finished) below where
  linked := h.linked
  classed := List.forall_mem_append.mpr ⟨hclass, h.classed⟩
  low_le := h.low_le
  low_mem := by
    obtain ⟨u, hu, hlow⟩ := h.low_mem
    exact ⟨u, List.append_assoc segment _ _ ▸ List.mem_append_right _ hu, hlow⟩
  seen := List.forall_mem_append.mpr ⟨hseen, h.seen⟩
  taken := h.taken

section

variable {node position : Nat} {callers : List (Nat × Nat)} {finished below : List Nat}

theorem Level.mutual_of_mem (h : Level next s node position callers finished below) :
    ∀ x ∈ finished ++ [node], Mutual next node x :=
  List.forall_mem_append.mpr ⟨h.classed, List.forall_mem_singleton.mpr (Mutual.refl node)⟩

theorem Level.settled (h : Level next s node position callers finished below) (hall : (next node).length ≤ position) :
    ∀ x ∈ finished ++ [node], ∀ y ∈ next x, s.Settled (s.low node) y := by
  refine List.forall_mem_append.mpr ⟨h.seen, List.forall_mem_singleton.mpr fun y hy => h.taken y ?_⟩
  rwa [List.take_of_length_le hall]

end

namespace Levels

variable {calls callers : List (Nat × Nat)} {stack : List Nat} {node position : Nat}

theorem of_agree {s' : Search} (h : Levels next s calls stack) (hlow : ∀ v ∈ stack, s'.low v = s.low v)
    (hrank : ∀ v ∈ stack, s'.rank v = s.rank v) (hsettled : ∀ bound v, s.Settled bound v → s'.Settled bound v) :
    Levels next s' calls stack := by
  induction h with
  | nil => exact .nil
  | cons top _ ih =>
    refine .cons (top.of_agree (hlow _ (by simp)) hrank hsettled) (ih (fun v hv => ?_) fun v hv => ?_)
    · exact hlow v (List.mem_append_right _ (List.mem_cons_of_mem _ hv))
    · exact hrank v (List.mem_append_right _ (List.mem_cons_of_mem _ hv))

theorem mem_of_call (h : Levels next s calls stack) : ∀ call ∈ calls, call.1 ∈ stack := by
  induction h with
  | nil => simp
  | cons _ _ ih =>
    refine List.forall_mem_cons.mpr ⟨by simp, fun call hcall => ?_⟩
    exact List.mem_append_right _ (List.mem_cons_of_mem _ (ih call hcall))

/-- All that is on the stack leads to the node of the last call. -/
theorem reaches_top (h : Levels next s calls stack) : ∀ call ∈ calls.head?, ∀ v ∈ stack, Reaches next v call.1 := by
  induction h with
  | nil => simp
  | @cons node position callers finished below top rest ih =>
    rintro call ⟨⟩ v hv
    rcases List.mem_append.mp hv with hv | hv
    · exact (top.classed v hv).2
    · rcases List.mem_cons.mp hv with rfl | hv
      · exact Reaches.refl v
      · cases rest with
        | nil => exact absurd hv List.not_mem_nil
        | @cons caller _ _ _ _ _ _ => exact (ih _ rfl v hv).tail (top.linked _ rfl)

/-- An edge was followed to a node that is settled. -/
theorem advance (h : Levels next s ((node, position) :: callers) stack) (hposition : position < (next node).length)
    (hchild : s.Settled (s.low node) (next node)[position]) :
    Levels next s ((node, position + 1) :: callers) stack := by
  cases h with
  | cons top rest =>
    refine .cons { top with taken := fun y hy => ?_ } rest
    rw [List.take_add_one, List.getElem?_eq_getElem hposition, List.mem_append] at hy
    rcases hy with hy | hy
    · exact top.taken y hy
    · rwa [Option.mem_toList.mp hy |> Option.some.inj] at hchild

theorem top (h : Levels next s ((node, position) :: callers) stack) :
    ∃ finished below, stack = finished ++ node :: below ∧ Level next s node position callers finished below ∧
      Levels next s callers below := by
  cases h with
  | cons top rest => exact ⟨_, _, rfl, top, rest⟩

theorem lower (h : Levels next s callers stack) (hnot : node ∉ stack) (number : Nat) :
    Levels next (s.lower node number) callers stack := by
  refine h.of_agree (fun v hv => low_lower_of_ne ?_ number) (fun _ _ => rfl) fun _ _ hsettled => hsettled
  rintro rfl
  exact hnot hv

end Levels

/-! ## Steps keep the levels -/

section

variable {node position child : Nat} {calls callers : List (Nat × Nat)} {finished below : List Nat}

theorem Kept.rank_below (h : Kept size s) (hstack : s.stack = finished ++ node :: below) :
    ∀ v ∈ below, s.rank v < s.rank node :=
  (List.pairwise_cons.mp (List.pairwise_append.mp (hstack ▸ h.sorted)).2.1).1

theorem Kept.mem_below (h : Kept size s) (hstack : s.stack = finished ++ node :: below) {v : Nat} (hv : v ∈ s.stack)
    (hrank : s.rank v < s.rank node) : v ∈ below := by
  have habove : ∀ x ∈ finished, s.rank node < s.rank x := fun x hx =>
    (List.pairwise_append.mp (hstack ▸ h.sorted)).2.2 x hx node List.mem_cons_self
  rw [hstack] at hv
  rcases List.mem_append.mp hv with hv | hv
  · exact absurd (habove v hv) (Nat.lt_asymm hrank)
  · rcases List.mem_cons.mp hv with rfl | hv
    · exact absurd hrank (Nat.lt_irrefl _)
    · exact hv

theorem Kept.not_mem_below (h : Kept size s) (hstack : s.stack = finished ++ node :: below) : node ∉ below :=
  fun hmem => Nat.lt_irrefl _ (h.rank_below hstack node hmem)

theorem Levels.enter (h : Levels next s calls s.stack) (hkept : Kept size s) (hchild : child < size)
    (hnew : s.number? child = none) : Levels next (s.enter child) calls s.stack := by
  have hne : ∀ v ∈ s.stack, v ≠ child := by
    rintro v hv rfl
    exact (hkept.entered_iff v).mpr (.inl hv) hnew
  refine h.of_agree (fun v hv => ?_) (fun v hv => hkept.rank_enter hchild (hne v hv)) fun bound v hsettled => ?_
  · rw [low_enter (hkept.lowlink_size ▸ hchild), if_neg (hne v hv)]
  · refine hsettled.imp_right fun ⟨hv, hbound⟩ => ⟨List.mem_cons_of_mem _ hv, ?_⟩
    rwa [hkept.rank_enter hchild (hne v hv)]

/-- A node that is entered starts a level with nothing above it. -/
theorem Levels.push (h : Levels next (s.enter child) calls s.stack) (hkept : Kept size s) (hchild : child < size)
    (hlinked : ∀ caller ∈ calls.head?, child ∈ next caller.1) :
    Levels next (s.enter child) ((child, 0) :: calls) (s.enter child).stack := by
  have hself : (s.enter child).low child = (s.enter child).rank child := by
    rw [low_enter (hkept.lowlink_size ▸ hchild), if_pos rfl, hkept.rank_enter_self hchild]
  have htop : Level next (s.enter child) child 0 calls [] s.stack :=
    ⟨hlinked, by simp, hself.le, ⟨child, by simp, hself, Reaches.refl child⟩, by simp, by simp⟩
  exact .cons htop h

/-- A node that is not a root is left: its level goes to the caller's. -/
theorem Levels.report (h : Levels next s ((node, position) :: callers) s.stack) (hkept : Kept size s)
    (hall : (next node).length ≤ position) (hlow : s.low node ≠ s.rank node) :
    Levels next (s.report node callers) callers s.stack := by
  obtain ⟨finished, below, hstack, top, rest⟩ := h.top
  -- the lowlink is the rank of a node below, which leads back to the caller
  obtain ⟨u, hu, hlowu, hreach⟩ := top.low_mem
  have hbelow : u ∈ below :=
    hkept.mem_below hstack (hstack ▸ hu) (hlowu ▸ Nat.lt_of_le_of_ne top.low_le hlow)
  cases rest with
  | nil => exact absurd hbelow List.not_mem_nil
  | @cons caller _ _ finished' below' top' rest' =>
    have hlink : node ∈ next caller := top.linked _ rfl
    have hup : Reaches next u caller := (Levels.cons top' rest').reaches_top _ rfl u hbelow
    have hmutual : Mutual next caller node := ⟨.single hlink, hreach.trans hup⟩
    have hsub : (finished' ++ caller :: below').Sublist s.stack := by
      rw [hstack]
      exact (List.sublist_cons_self _ _).trans (List.sublist_append_right _ _)
    have hcaller : caller < s.lowlink.size := hkept.lt_lowlink_size (hsub.subset (by simp))
    have hnot : caller ∉ below' :=
      (List.nodup_cons.mp (List.nodup_append.mp (hkept.nodup.sublist hsub)).2.1).1
    have hlevel := top'.lower hcaller hbelow (.head hlink hreach)
    have hle : (s.lower caller (s.rank u)).low caller ≤ s.low node := by
      rw [low_lower hcaller, if_pos rfl, hlowu]
      exact Nat.min_le_right _ _
    have hsegment : s.stack = ((finished ++ [node]) ++ finished') ++ caller :: below' := by simp [hstack]
    rw [Search.report, hlowu, hsegment]
    refine .cons (hlevel.absorb (fun x hx => ?_) fun x hx y hy => ?_) (rest'.lower hnot _)
    · exact hmutual.trans (top.mutual_of_mem x hx)
    · exact (top.settled hall x hx y hy).mono hle

theorem Levels.low_report (h : Levels next s callers below) (hnot : node ∉ below) :
    (s.report node callers).low node = s.low node := by
  cases h with
  | nil => rfl
  | cons _ _ =>
    refine low_lower_of_ne ?_ _
    rintro rfl
    exact hnot (by simp)

/-- The lowlink of a root is above its caller's, so it reports nothing new. -/
theorem Levels.report_of_root (h : Levels next s callers below) (hkept : Kept size s)
    (hstack : s.stack = finished ++ node :: below) (hroot : s.low node = s.rank node) : s.report node callers = s := by
  cases h with
  | nil => rfl
  | @cons caller _ _ _ _ top _ =>
    have hlt : s.rank caller < s.low node := hroot ▸ hkept.rank_below hstack caller (by simp)
    exact lower_of_le (top.low_le.trans hlt.le)

/-- A root is left: its level goes, and the others stay. -/
theorem Levels.close (h : Levels next s callers below) (hkept : Kept size s) (hemit : ∀ nodes, (emit nodes).Perm nodes)
    (hstack : s.stack = finished ++ node :: below) : Levels next (s.close emit node) callers below := by
  refine h.of_agree (fun _ _ => rfl) (fun _ _ => rfl) fun bound v hsettled => ?_
  rw [Settled, hkept.order_close hstack, hkept.stack_close hstack, List.mem_append, mem_emit hemit]
  rcases hsettled with hv | ⟨hv, hbound⟩
  · exact .inl (.inl hv)
  · rw [hstack, List.append_cons, List.mem_append] at hv
    rcases hv with hv | hv
    · exact .inl (.inr hv)
    · exact .inr ⟨hv, hbound⟩

/-! ## Roots -/

/-- From a root's level no edge leads to what is below it. -/
theorem Level.mem_of_root (h : Level next s node position callers finished below) (hkept : Kept size s)
    (hstack : s.stack = finished ++ node :: below) (hall : (next node).length ≤ position)
    (hroot : s.low node = s.rank node) :
    ∀ v ∈ finished ++ [node], ∀ w ∈ next v, w ∈ s.order ∨ w ∈ finished ++ [node] := by
  intro v hv w hw
  refine (h.settled hall v hv w hw).imp_right fun ⟨hmem, hrank⟩ => ?_
  rw [hstack, List.append_cons, List.mem_append] at hmem
  refine hmem.resolve_right fun hbelow => ?_
  exact Nat.not_le_of_lt (hkept.rank_below hstack w hbelow) (hroot ▸ hrank)

/-- What stands on the stack from a root on is its class: what it leads to is among it or in the order, and
from there nothing leads back. -/
theorem Level.mem_iff_of_root (h : Level next s node position callers finished below) (hkept : Kept size s)
    (hclosed : ∀ v ∈ s.order, ∀ w ∈ next v, w ∈ s.order) (hstack : s.stack = finished ++ node :: below)
    (hall : (next node).length ≤ position) (hroot : s.low node = s.rank node) (x : Nat) :
    x ∈ finished ++ [node] ↔ Mutual next node x := by
  have hstays : ∀ v, v ∈ s.order ∨ v ∈ finished ++ [node] → ∀ w ∈ next v, w ∈ s.order ∨ w ∈ finished ++ [node] := by
    rintro v (hv | hv) w hw
    · exact .inl (hclosed v hv w hw)
    · exact h.mem_of_root hkept hstack hall hroot v hv w hw
  constructor
  · exact h.mutual_of_mem x
  · intro hx
    have hreached := hx.1.mem_of_closed {v | v ∈ s.order ∨ v ∈ finished ++ [node]} hstays (.inr (by simp))
    refine hreached.resolve_left fun horder => ?_
    exact hkept.apart node (by simp [hstack]) (hx.2.mem_of_closed {v | v ∈ s.order} hclosed horder)

theorem mergeSort_eq_classOf {members : List Nat} (hnodup : members.Nodup) (hlt : ∀ x ∈ members, x < size)
    (hiff : ∀ x, x ∈ members ↔ Mutual next node x) : members.mergeSort = classOf next size node := by
  have hperm : members.Perm (classOf next size node) := by
    have hclass := List.nodup_range.sublist (classOf_sublist next size node)
    refine (List.perm_ext_iff_of_nodup hnodup hclass).mpr fun x => ?_
    rw [mem_classOf, hiff]
    exact ⟨fun hx => ⟨hlt x ((hiff x).mpr hx), hx⟩, fun hx => hx.2⟩
  refine ((List.mergeSort_perm _ _).trans hperm).eq_of_pairwise (fun a b _ _ => Nat.le_antisymm)
    (List.pairwise_mergeSort' (· ≤ ·) members) ?_
  exact List.pairwise_le_range.sublist (classOf_sublist next size node)

end

/-! ## What a search with calls under way has done -/

/-- It has left the nodes of `row`, in that order, and closed the class of each of `heads` when it left
that node. -/
structure Tracks (next : Nat → List Nat) (emit : List Nat → List Nat) (size : Nat) (s : Search)
    (calls : List (Nat × Nat)) (row heads : List Nat) : Prop where
  kept : Kept size s
  levels : Levels next s calls s.stack
  closed : ∀ v ∈ s.order, ∀ w ∈ next v, w ∈ s.order
  row_iff : ∀ x, x ∈ row ↔ s.number? x ≠ none ∧ x ∉ calls.map Prod.fst
  order_eq : s.order = heads.flatMap fun head => emit (classOf next size head)
  sublist : heads.Sublist row
  apart : heads.Pairwise fun head later => ¬ Reaches next head later
  led : ∀ x ∈ row, x ∈ s.order → x ∈ heads ∨ ∃ head ∈ heads, Mutual next x head ∧ [x, head].Sublist row

namespace Tracks

variable {calls callers : List (Nat × Nat)} {row heads : List Nat} {node position child : Nat}

theorem fresh (next : Nat → List Nat) (emit : List Nat → List Nat) (size : Nat) :
    Tracks next emit size (Search.fresh size) [] [] [] where
  kept := .fresh size
  levels := .nil
  closed := by simp [Search.fresh]
  row_iff x := by
    rw [(Kept.fresh size).entered_iff]
    simp [Search.fresh]
  order_eq := rfl
  sublist := .slnil
  apart := .nil
  led := by simp

/-- Steps that leave no node leave all as it was but the calls. -/
theorem of_same_order {s' : Search} {calls' : List (Nat × Nat)} (h : Tracks next emit size s calls row heads)
    (hkept : Kept size s') (hlevels : Levels next s' calls' s'.stack) (horder : s'.order = s.order)
    (hleft : ∀ x, s'.number? x ≠ none ∧ x ∉ calls'.map Prod.fst ↔ s.number? x ≠ none ∧ x ∉ calls.map Prod.fst) :
    Tracks next emit size s' calls' row heads where
  kept := hkept
  levels := hlevels
  closed := horder ▸ h.closed
  row_iff x := (h.row_iff x).trans (hleft x).symm
  order_eq := horder ▸ h.order_eq
  sublist := h.sublist
  apart := h.apart
  led := horder ▸ h.led

theorem head_mem_order (h : Tracks next emit size s calls row heads) (hemit : ∀ nodes, (emit nodes).Perm nodes) :
    ∀ head ∈ heads, head ∈ s.order := by
  intro head hhead
  have hlt : head < size := h.kept.lt_size ((h.row_iff head).mp (h.sublist.subset hhead)).1
  rw [h.order_eq]
  exact List.mem_flatMap.mpr ⟨head, hhead, (hemit _).mem_iff.mpr (mem_classOf.mpr ⟨hlt, Mutual.refl head⟩)⟩

theorem enter {calls' : List (Nat × Nat)} (h : Tracks next emit size s calls row heads) (hchild : child < size)
    (hnew : s.number? child = none) (hcalls : calls'.map Prod.fst = calls.map Prod.fst)
    (hlevels : Levels next (s.enter child) calls' s.stack)
    (hlinked : ∀ caller ∈ calls'.head?, child ∈ next caller.1) :
    Tracks next emit size (s.enter child) ((child, 0) :: calls') row heads := by
  refine h.of_same_order (h.kept.enter hchild hnew) (hlevels.push h.kept hchild hlinked) rfl fun x => ?_
  rw [number?_enter (h.kept.index_size ▸ hchild), List.map_cons, hcalls, List.mem_cons]
  by_cases hx : x = child <;> simp [hx, hnew]

theorem enter_child (h : Tracks next emit size s ((node, position) :: callers) row heads)
    (hposition : position < (next node).length) (hlt : (next node)[position] < size)
    (hnew : s.number? (next node)[position] = none) :
    Tracks next emit size (s.enter (next node)[position])
      (((next node)[position], 0) :: (node, position + 1) :: callers) row heads := by
  obtain ⟨finished, below, hstack, top, -⟩ := h.levels.top
  have hopen : node ∈ s.stack := by simp [hstack]
  have hne : node ≠ (next node)[position] := fun he => (h.kept.entered_iff node).mpr (.inl hopen) (he ▸ hnew)
  refine h.enter hlt hnew rfl ((h.levels.enter h.kept hlt hnew).advance hposition (.inr ⟨List.mem_cons_self, ?_⟩)) ?_
  · rw [h.kept.rank_enter_self hlt, low_enter (h.kept.lowlink_size ▸ hlt), if_neg hne]
    exact (top.low_le.trans_lt (h.kept.rank_lt hopen)).le
  · rintro _ ⟨⟩
    exact List.getElem_mem hposition

theorem look {number : Nat} (h : Tracks next emit size s ((node, position) :: callers) row heads)
    (hposition : position < (next node).length) (hnumber : s.number? (next node)[position] = some number) :
    Tracks next emit size (s.look node (next node)[position] number) ((node, position + 1) :: callers) row heads := by
  have hedge : (next node)[position] ∈ next node := List.getElem_mem hposition
  generalize hchild : (next node)[position] = child at hnumber hedge ⊢
  by_cases hopen : s.isOpen child
  · have hmem : child ∈ s.stack := (h.kept.isOpen_iff child).mp hopen
    obtain ⟨finished, below, hstack, top, rest⟩ := h.levels.top
    have hnode : node < s.lowlink.size := h.kept.lt_lowlink_size (by simp [hstack])
    have hrank : number = s.rank child := by rw [rank, hnumber, Option.getD_some]
    rw [Search.look, if_pos hopen, hrank]
    refine h.of_same_order (h.kept.lower node _) ?_ rfl fun x => Iff.rfl
    have hlevels : Levels next (s.lower node (s.rank child)) ((node, position) :: callers) s.stack := by
      have hnot := h.kept.not_mem_below hstack
      rw [hstack] at hmem ⊢
      exact .cons (top.lower hnode hmem (.single hedge)) (rest.lower hnot _)
    refine hlevels.advance hposition (.inr ⟨hchild ▸ hmem, ?_⟩)
    rw [low_lower hnode, if_pos rfl, hchild]
    exact Nat.min_le_right _ _
  · have hmem : child ∈ s.order :=
      ((h.kept.entered_iff child).mp (by simp [hnumber])).resolve_left (mt (h.kept.isOpen_iff child).mpr hopen)
    rw [Search.look, if_neg hopen]
    exact h.of_same_order h.kept (h.levels.advance hposition (.inl (hchild ▸ hmem))) rfl fun x => Iff.rfl

theorem row_iff_leave (h : Tracks next emit size s ((node, position) :: callers) row heads) (x : Nat) :
    x ∈ row ++ [node] ↔ s.number? x ≠ none ∧ x ∉ callers.map Prod.fst := by
  obtain ⟨finished, below, hstack, top, rest⟩ := h.levels.top
  have hentered : s.number? node ≠ none := (h.kept.entered_iff node).mpr (.inl (by simp [hstack]))
  have hcallers : node ∉ callers.map Prod.fst := by
    intro hmem
    obtain ⟨caller, hcaller, he⟩ := List.mem_map.mp hmem
    exact h.kept.not_mem_below hstack (he ▸ rest.mem_of_call caller hcaller)
  rw [List.mem_append, List.mem_singleton, h.row_iff, List.map_cons, List.mem_cons]
  by_cases hx : x = node
  · simp [hx, hentered, hcallers]
  · simp [hx]

/-- A node is left that is not a root. -/
theorem report (h : Tracks next emit size s ((node, position) :: callers) row heads)
    (hall : (next node).length ≤ position) (hlow : s.low node ≠ s.rank node) :
    Tracks next emit size (s.report node callers) callers (row ++ [node]) heads := by
  have hopen : node ∈ s.stack := h.levels.mem_of_call _ List.mem_cons_self
  have hlevels := h.levels.report h.kept hall hlow
  have hrow := h.row_iff_leave
  have hled : ∀ x ∈ row ++ [node], x ∈ s.order →
      x ∈ heads ∨ ∃ head ∈ heads, Mutual next x head ∧ [x, head].Sublist (row ++ [node]) := by
    intro x hx horder
    rcases List.mem_append.mp hx with hx | hx
    · refine (h.led x hx horder).imp_right fun ⟨head, hhead, hmutual, hsub⟩ => ⟨head, hhead, hmutual, ?_⟩
      exact hsub.trans (List.sublist_append_left _ _)
    · exact absurd (List.mem_singleton.mp hx ▸ horder) (h.kept.apart node hopen)
  cases callers with
  | nil =>
    exact ⟨h.kept, hlevels, h.closed, hrow, h.order_eq, h.sublist.trans (List.sublist_append_left _ _), h.apart, hled⟩
  | cons caller callers =>
    exact ⟨h.kept.lower _ _, hlevels, h.closed, hrow, h.order_eq,
      h.sublist.trans (List.sublist_append_left _ _), h.apart, hled⟩

/-- A root is left, and its class is closed. -/
theorem close (h : Tracks next emit size s ((node, position) :: callers) row heads)
    (hemit : ∀ nodes, (emit nodes).Perm nodes) (hall : (next node).length ≤ position)
    (hroot : s.low node = s.rank node) :
    Tracks next emit size (s.close emit node) callers (row ++ [node]) (heads ++ [node]) := by
  obtain ⟨finished, below, hstack, top, rest⟩ := h.levels.top
  have hiff := top.mem_iff_of_root h.kept h.closed hstack hall hroot
  have hsub : (finished ++ [node]).Sublist s.stack := by
    rw [hstack, List.append_cons finished node below]
    exact List.sublist_append_left _ _
  have hclass : (finished ++ [node]).mergeSort = classOf next size node :=
    mergeSort_eq_classOf (h.kept.nodup.sublist hsub) (fun x hx => h.kept.stack_lt_size (hsub.subset hx)) hiff
  have hmem : ∀ x, x ∈ (s.close emit node).order ↔ x ∈ s.order ∨ x ∈ finished ++ [node] := by
    intro x
    rw [h.kept.order_close hstack, List.mem_append, mem_emit hemit]
  refine ⟨h.kept.close hemit hstack, ?_, fun v hv w hw => ?_, h.row_iff_leave, ?_, h.sublist.append_right _, ?_, ?_⟩
  · rw [h.kept.stack_close hstack]
    exact rest.close h.kept hemit hstack
  · rw [hmem] at hv ⊢
    rcases hv with hv | hv
    · exact .inl (h.closed v hv w hw)
    · exact top.mem_of_root h.kept hstack hall hroot v hv w hw
  · rw [h.kept.order_close hstack, hclass, h.order_eq, List.flatMap_append, List.flatMap_singleton]
  · refine List.pairwise_append.mpr ⟨h.apart, List.pairwise_singleton _ _, fun head hhead => ?_⟩
    refine List.forall_mem_singleton.mpr fun hreach => h.kept.apart node (by simp [hstack]) ?_
    exact hreach.mem_of_closed {v | v ∈ s.order} h.closed (h.head_mem_order hemit head hhead)
  · intro x hx hclosed
    rcases List.mem_append.mp hx with hx | hx
    · rcases (hmem x).mp hclosed with hold | hnow
      · rcases h.led x hx hold with hhead | ⟨head, hhead, hmutual, hpair⟩
        · exact .inl (List.mem_append_left _ hhead)
        · exact .inr ⟨head, List.mem_append_left _ hhead, hmutual, hpair.trans (List.sublist_append_left _ _)⟩
      · refine .inr ⟨node, by simp, ((hiff x).mp hnow).symm, ?_⟩
        exact (List.singleton_sublist.mpr hx).append_right [node]
    · exact .inl (List.mem_append_right _ hx)

theorem leave (h : Tracks next emit size s ((node, position) :: callers) row heads)
    (hemit : ∀ nodes, (emit nodes).Perm nodes) (hall : (next node).length ≤ position) :
    ∃ heads', Tracks next emit size (s.leave emit node callers) callers (row ++ [node]) heads' := by
  obtain ⟨finished, below, hstack, top, rest⟩ := h.levels.top
  have hopen : node ∈ s.stack := by simp [hstack]
  by_cases hroot : s.low node = s.rank node
  · refine ⟨heads ++ [node], ?_⟩
    rw [Search.leave, rest.report_of_root h.kept hstack hroot, if_pos]
    · exact h.close hemit hall hroot
    · rw [h.kept.number_of_mem hopen, hroot]
  · refine ⟨heads, ?_⟩
    have hlow : (s.report node callers).low node = s.low node :=
      rest.low_report (h.kept.not_mem_below hstack)
    have hnumber : (s.report node callers).number? node = some (s.rank node) := by
      rw [number?, index_report]
      exact h.kept.number_of_mem hopen
    rw [Search.leave, if_neg]
    · exact h.report hall hroot
    · rw [hlow, hnumber]
      exact fun he => hroot (Option.some.inj he).symm

end Tracks

/-! ## Runs -/

/-- What is left of the walks that the calls stand for: the edges that were not followed, then the node itself,
then the callers. -/
inductive Resumes (next : Nat → List Nat) : List Nat → List (Nat × Nat) → List Nat → Prop
  | done (seen : List Nat) : Resumes next seen [] []
  | call {seen : List Nat} {node position : Nat} {callers : List (Nat × Nat)} {below rest : List Nat}
      (inner : Visits next seen ((next node).drop position) below) (outer : Resumes next (below ++ seen) callers rest) :
      Resumes next seen ((node, position) :: callers) (below ++ node :: rest)

namespace Resumes

variable {seen rest : List Nat} {calls callers : List (Nat × Nat)} {node position : Nat}

theorem of_seen (h : Resumes next seen calls rest) {other : List Nat} (hseen : ∀ x, x ∈ seen ↔ x ∈ other) :
    Resumes next other calls rest := by
  induction h generalizing other with
  | done => exact .done other
  | call inner _ ih =>
    refine .call (inner.of_seen hseen) (ih fun x => ?_)
    simp only [List.mem_append, hseen]

/-- A call whose next edge leads to a node that was seen. -/
theorem pass (h : Resumes next seen ((node, position + 1) :: callers) rest) (hposition : position < (next node).length)
    (hmem : (next node)[position] ∈ seen) : Resumes next seen ((node, position) :: callers) rest := by
  cases h with
  | call inner outer =>
    refine .call ?_ outer
    rw [List.drop_eq_getElem_cons hposition]
    exact .pass hmem inner

/-- A call whose next edge leads to a node that is entered. -/
theorem enter (hposition : position < (next node).length) (hmem : (next node)[position] ∉ seen)
    (h : Resumes next ((next node)[position] :: seen) (((next node)[position], 0) :: (node, position + 1) :: callers)
      rest) : Resumes next seen ((node, position) :: callers) rest := by
  cases h with
  | @call _ _ _ _ below _ inner outer =>
    cases outer with
    | @call _ _ _ _ below' rest inner' outer =>
      have hwalk : Visits next seen ((next node).drop position) (below ++ (next node)[position] :: below') := by
        rw [List.drop_eq_getElem_cons hposition]
        exact .enter hmem inner inner'
      have hrest : Resumes next ((below ++ (next node)[position] :: below') ++ seen) callers rest := by
        refine outer.of_seen fun x => ?_
        simp only [List.mem_append, List.mem_cons]
        tauto
      have hresumes := Resumes.call hwalk hrest
      simpa only [List.append_assoc, List.cons_append] using hresumes

end Resumes

section

variable {row heads nodes : List Nat} {node : Nat}

theorem Tracks.follow {calls : List (Nat × Nat)} {seen : List Nat} (hnext : ∀ a, ∀ b ∈ next a, b < size)
    (hemit : ∀ nodes, (emit nodes).Perm nodes) (h : Tracks next emit size s calls row heads)
    (hseen : ∀ x, x ∈ seen ↔ s.number? x ≠ none) :
    ∃ rest heads', Tracks next emit size (follow next emit s calls) [] (row ++ rest) heads' ∧
      Resumes next seen calls rest := by
  -- along the steps of the search; what a step adds to the row is what the walk goes on with
  fun_induction Search.follow next emit s calls generalizing row heads seen with
  | case1 s => exact ⟨[], heads, by rwa [List.append_nil], .done seen⟩
  | case2 s node position callers hposition hchild ih =>
    have hlt := hnext node _ (List.getElem_mem hposition)
    have hnew : s.number? (next node)[position] = none := by rw [number?, hchild]; rfl
    have hnot : (next node)[position] ∉ seen := fun hmem => (hseen _).mp hmem hnew
    obtain ⟨rest, heads', htracks, hresumes⟩ :=
      ih (h.enter_child hposition hlt hnew) (h.kept.mem_cons_iff hlt hseen)
    exact ⟨rest, heads', htracks, hresumes.enter hposition hnot⟩
  | case3 s node position callers hposition number hchild ih =>
    have hnumber : s.number? (next node)[position] = some number := by rw [number?, hchild]; rfl
    have hmem : (next node)[position] ∈ seen := (hseen _).mpr (by simp [hnumber])
    obtain ⟨rest, heads', htracks, hresumes⟩ := ih (h.look hposition hnumber) fun x => by
      rw [hseen, number?, number?, index_look]
    exact ⟨rest, heads', htracks, hresumes.pass hposition hmem⟩
  | case4 s node position callers hposition hchild ih =>
    have hlt := hnext node _ (List.getElem_mem hposition)
    rw [← h.kept.index_size] at hlt
    exact absurd (Array.getElem?_eq_none_iff.mp hchild) (Nat.not_le_of_lt hlt)
  | case5 s node position callers hposition ih =>
    have hall := Nat.le_of_not_lt hposition
    obtain ⟨heads', hleft⟩ := h.leave hemit hall
    obtain ⟨rest, heads'', htracks, hresumes⟩ := ih hleft fun x => by rw [hseen, number?, number?, index_leave]
    rw [List.append_assoc, List.singleton_append] at htracks
    have hinner : Visits next seen ((next node).drop position) [] := by
      rw [List.drop_eq_nil_of_le hall]
      exact .done seen
    exact ⟨node :: rest, heads'', htracks, .call hinner hresumes⟩

theorem Tracks.connect (hnext : ∀ a, ∀ b ∈ next a, b < size) (hemit : ∀ nodes, (emit nodes).Perm nodes)
    (h : Tracks next emit size s [] row heads) (hnode : node < size) :
    ∃ rest heads', Tracks next emit size (connect next emit s node) [] (row ++ rest) heads' ∧
      Visits next row [node] rest := by
  have hrow : ∀ x, x ∈ row ↔ s.number? x ≠ none := by simpa using h.row_iff
  have hindex : s.index[node]? = some (s.number? node) := by
    rw [number?, Array.getElem?_eq_getElem (h.kept.index_size ▸ hnode), Option.getD_some]
  by_cases hnew : s.number? node = none
  · have hnot : node ∉ row := fun hmem => (hrow node).mp hmem hnew
    have hstart : Tracks next emit size (s.enter node) [(node, 0)] row heads :=
      h.enter hnode hnew rfl (h.levels.enter h.kept hnode hnew) (by simp)
    obtain ⟨rest, heads', htracks, hresumes⟩ := hstart.follow hnext hemit (h.kept.mem_cons_iff hnode hrow)
    refine ⟨rest, heads', by rwa [Search.connect, if_pos (by rw [hindex, hnew])], ?_⟩
    cases hresumes with
    | call inner outer =>
      cases outer
      exact .enter hnot inner (.done _)
  · refine ⟨[], heads, ?_, .pass ((hrow node).mpr hnew) (.done _)⟩
    rw [Search.connect, if_neg (by simpa [hindex] using hnew), List.append_nil]
    exact h

theorem Tracks.foldl_connect (hnext : ∀ a, ∀ b ∈ next a, b < size) (hemit : ∀ nodes, (emit nodes).Perm nodes)
    (h : Tracks next emit size s [] row heads) (hnodes : ∀ node ∈ nodes, node < size) :
    ∃ rest heads', Tracks next emit size (nodes.foldl (Search.connect next emit) s) [] (row ++ rest) heads' ∧
      Visits next row nodes rest := by
  induction nodes generalizing s row heads with
  | nil => exact ⟨[], heads, by rwa [List.append_nil], .done row⟩
  | cons node nodes ih =>
    obtain ⟨hnode, hnodes⟩ := List.forall_mem_cons.mp hnodes
    obtain ⟨first, heads', htracks, hfirst⟩ := h.connect hnext hemit hnode
    obtain ⟨rest, heads'', htracks, hrest⟩ := ih htracks hnodes
    refine ⟨first ++ rest, heads'', by rwa [List.append_assoc] at htracks, hfirst.cons (hrest.of_seen fun x => ?_)⟩
    simp only [List.mem_append, or_comm]

/-! ## The order -/

theorem Tracks.leaders_eq (h : Tracks next emit size s [] row heads) (hnodup : row.Nodup) :
    leaders next row = heads := by
  have hstack : s.stack = [] := by
    have hlevels := h.levels
    generalize s.stack = stack at hlevels
    cases hlevels
    rfl
  refine SchemaModels.leaders_eq hnodup h.sublist (h.apart.imp fun hnot hmutual => hnot hmutual.1) fun x hx => ?_
  refine h.led x hx (((h.kept.entered_iff x).mp ((h.row_iff x).mp hx).1).resolve_left ?_)
  rw [hstack]
  exact List.not_mem_nil

/-- The order is made of the classes of the walk's leaders, and no class leads to a later one. -/
theorem order_foldl_connect (hnext : ∀ a, ∀ b ∈ next a, b < size) (hemit : ∀ nodes, (emit nodes).Perm nodes)
    (hnodes : ∀ node ∈ nodes, node < size) :
    ∃ row, Visits next [] nodes row ∧
      (nodes.foldl (Search.connect next emit) (Search.fresh size)).order =
        (leaders next row).flatMap (fun leader => emit (classOf next size leader)) ∧
      (leaders next row).Pairwise fun leader later => ¬ Reaches next leader later := by
  obtain ⟨row, heads, htracks, hvisits⟩ := (Tracks.fresh next emit size).foldl_connect hnext hemit hnodes
  rw [List.nil_append] at htracks
  refine ⟨row, hvisits, ?_⟩
  rw [htracks.leaders_eq hvisits.nodup]
  exact ⟨htracks.order_eq, htracks.apart⟩

end

end Search

end SchemaModels
