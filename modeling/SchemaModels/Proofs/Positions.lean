import Mathlib.Data.Prod.Lex
import SchemaModels.Proofs.ViablePrefix

/-! Positions identify offsets. Every character moves a position forward, to a later line or along the same
one, so no two places of a text share a position; and the lines of a text lead from a position back to the
offset that it is the position of. -/

namespace SchemaModels.Position
set_option autoImplicit false

/-! ## The order of positions -/

/-- Positions by line, and by column on one line. -/
def rank (p : Position) : Nat ×ₗ Nat :=
  toLex (p.line, p.column)

theorem rank_lt_next (p : Position) (c : Char) : p.rank < (p.next c).rank := by
  rw [rank, rank, Prod.Lex.toLex_lt_toLex]
  unfold next
  split
  · exact Or.inl (Nat.lt_succ_self _)
  · exact Or.inr ⟨rfl, Nat.lt_succ_self _⟩

theorem rank_le_foldl_next (p : Position) (cs : List Char) : p.rank ≤ (cs.foldl next p).rank := by
  induction cs generalizing p with
  | nil => exact le_refl _
  | cons c cs ih => exact (rank_lt_next p c).le.trans (ih (p.next c))

theorem rank_behind_lt (front : List Char) (c : Char) (more : List Char) :
    (behind front).rank < (behind (front ++ c :: more)).rank := by
  rw [← foldl_next, ← foldl_next, List.foldl_append, List.foldl_cons]
  exact (rank_lt_next _ c).trans_le (rank_le_foldl_next _ more)

/-! ## Places between characters -/

theorem exists_split {source : List Char} {offset : Nat} (hle : offset ≤ byteLength source)
    (hboundary : isBoundary source offset = true) :
    ∃ front rest, source = front ++ rest ∧ byteLength front = offset := by
  induction source generalizing offset with
  | nil => exact ⟨[], [], rfl, (Nat.le_zero.mp hle).symm⟩
  | cons c cs ih =>
    cases offset with
    | zero => exact ⟨[], c :: cs, rfl, rfl⟩
    | succ offset =>
      have hbytes : byteLength (c :: cs) = c.utf8Size + byteLength cs := rfl
      rw [isBoundary, Bool.and_eq_true, decide_eq_true_eq] at hboundary
      · obtain ⟨hfits, hrest⟩ := hboundary
        obtain ⟨front, rest, rfl, hfront⟩ := ih (by omega) hrest
        refine ⟨c :: front, rest, rfl, ?_⟩
        change c.utf8Size + byteLength front = offset + 1
        omega
      · exact Nat.succ_ne_zero offset

theorem advance_of_le (p : Position) {source : List Char} {offset : Nat} (h : byteLength source ≤ offset) :
    p.advance source offset = source.foldl next p := by
  induction source generalizing p offset with
  | nil => rfl
  | cons c cs ih =>
    have hbytes : byteLength (c :: cs) = c.utf8Size + byteLength cs := rfl
    rw [advance, if_pos (by omega), List.foldl_cons]
    exact ih (p.next c) (by omega)

/-- Of two ways to cut a text, the shorter front begins the longer one. -/
theorem exists_between {source front rest front' rest' : List Char} (h : source = front ++ rest)
    (h' : source = front' ++ rest') (hlt : byteLength front < byteLength front') :
    ∃ c more, front' = front ++ c :: more := by
  rcases List.append_eq_append_iff.mp (h.symm.trans h') with ⟨middle, rfl, -⟩ | ⟨middle, rfl, -⟩
  · cases middle with
    | nil =>
      rw [List.append_nil] at hlt
      exact absurd hlt (Nat.lt_irrefl _)
    | cons c more => exact ⟨c, more, rfl⟩
  · rw [byteLength_append] at hlt
    omega

/-! ## Back to the offset -/

/-- The offset reached from the start of a position's line by going on to its column. Lines and columns count
from one, and there is none beyond the last line or beyond the end of a line. -/
def offset? (source : List Char) : Position → Option Nat
  | ⟨line + 1, column + 1⟩ =>
    match (source.splitOn '\n')[line]? with
    | some text =>
      if column ≤ text.length then
        some (byteLength (((source.splitOn '\n').take line).flatMap (· ++ ['\n'])) + byteLength (text.take column))
      else none
    | none => none
  | _ => none

theorem offset?_first_line {front : List Char} (h : '\n' ∉ front) (rest : List Char) :
    offset? (front ++ rest) ⟨1, front.length + 1⟩ = some (byteLength front) := by
  have hline : ∃ more others, (front ++ rest).splitOn '\n' = (front ++ more) :: others := by
    by_cases hrest : '\n' ∈ rest
    · obtain ⟨more, after, rfl, hmore⟩ := List.eq_append_cons_of_mem hrest
      refine ⟨more, after.splitOn '\n', ?_⟩
      rw [← List.append_assoc, List.splitOn_append_cons_self_of_not_mem]
      simp [h, hmore]
    · exact ⟨rest, [], List.splitOn_eq_singleton (by simp [h, hrest])⟩
  obtain ⟨more, others, hline⟩ := hline
  simp [offset?, hline, byteLength]

/-- A line before adds its bytes and its line feed. -/
theorem offset?_cons_line {line : List Char} (h : '\n' ∉ line) (rest : List Char) (number column offset : Nat)
    (hrest : offset? rest ⟨number + 1, column⟩ = some offset) :
    offset? (line ++ '\n' :: rest) ⟨number + 2, column⟩ = some (byteLength (line ++ ['\n']) + offset) := by
  cases column with
  | zero => cases hrest
  | succ column =>
    have hsplit := List.splitOn_append_cons_self_of_not_mem h rest
    simp only [offset?] at hrest ⊢
    rw [hsplit, List.getElem?_cons_succ, List.take_succ_cons, List.flatMap_cons, byteLength_append]
    split at hrest
    · next text htext =>
      split at hrest
      · next hcolumn =>
        cases hrest
        simp only [hcolumn, if_true, Nat.add_assoc]
      · cases hrest
    · cases hrest

theorem behind_of_not_mem {front : List Char} (h : '\n' ∉ front) : behind front = ⟨1, front.length + 1⟩ := by
  have hcount : front.count '\n' = 0 := List.count_eq_zero.mpr h
  have hall : front.reverse.takeWhile (fun c => c != '\n') = front.reverse := by
    rw [List.takeWhile_eq_self_iff]
    intro c hc
    simp only [bne_iff_ne, ne_eq]
    rintro rfl
    exact h (List.mem_reverse.mp hc)
  rw [behind, hcount, hall, List.length_reverse]

theorem behind_cons_line {line : List Char} (h : '\n' ∉ line) (front : List Char) :
    behind (line ++ '\n' :: front) = ⟨(behind front).line + 1, (behind front).column⟩ := by
  have hcount : (line ++ '\n' :: front).count '\n' = front.count '\n' + 1 := by
    simp [List.count_append, List.count_eq_zero.mpr h]
  -- the last line begins behind the line feed, so what stands before it is not on it
  have hlast : (line ++ '\n' :: front).reverse.takeWhile (fun c => c != '\n') =
      front.reverse.takeWhile fun c => c != '\n' := by
    have hstop : (['\n'] ++ line.reverse).takeWhile (fun c => c != '\n') = [] := rfl
    rw [List.reverse_append, List.reverse_cons, List.append_assoc, List.takeWhile_append, hstop, List.append_nil]
    split
    · next hall => exact (List.takeWhile_prefix _).eq_of_length hall |>.symm
    · rfl
  rw [behind, hcount, hlast]
  rfl

theorem offset?_behind (front rest : List Char) : offset? (front ++ rest) (behind front) = some (byteLength front) := by
  induction hlength : front.length using Nat.strong_induction_on generalizing front with
  | _ n ih =>
    by_cases hmem : '\n' ∈ front
    · obtain ⟨line, front, rfl, hline⟩ := List.eq_append_cons_of_mem hmem
      simp only [List.length_append, List.length_cons] at hlength
      have hfront := ih front.length (by omega) front rfl
      rw [behind_cons_line hline, List.append_assoc, List.cons_append]
      refine (offset?_cons_line hline (front ++ rest) _ _ _ hfront).trans ?_
      rw [← byteLength_append, List.append_assoc, List.singleton_append]
    · rw [behind_of_not_mem hmem]
      exact offset?_first_line hmem rest

/-- Along a text positions increase strictly, every position leads back to its offset, and beyond the end they
stay. -/
theorem ofOffset_identifies (source : List Char) :
    (∀ a b, a < b → b ≤ byteLength source → isBoundary source a = true → isBoundary source b = true →
      (ofOffset source a).rank < (ofOffset source b).rank) ∧
    (∀ a, a ≤ byteLength source → isBoundary source a = true → offset? source (ofOffset source a) = some a) ∧
    ∀ a, byteLength source ≤ a → ofOffset source a = ofOffset source (byteLength source) := by
  refine ⟨fun a b hlt hb ha' hb' => ?_, fun a ha ha' => ?_, fun a ha => ?_⟩
  · obtain ⟨front, rest, hsource, rfl⟩ := exists_split (hlt.le.trans hb) ha'
    obtain ⟨front', rest', hsource', rfl⟩ := exists_split hb hb'
    obtain ⟨c, more, hmore⟩ := exists_between hsource hsource' hlt
    have hfirst : ofOffset source (byteLength front) = behind front := hsource ▸ ofOffset_byteLength front rest
    have hsecond : ofOffset source (byteLength front') = behind front' := hsource' ▸ ofOffset_byteLength front' rest'
    rw [hfirst, hsecond, hmore]
    exact rank_behind_lt front c more
  · obtain ⟨front, rest, rfl, rfl⟩ := exists_split ha ha'
    rw [ofOffset_byteLength, offset?_behind]
  · rw [ofOffset, ofOffset, advance_of_le _ ha, advance_of_le _ le_rfl]

/-- A two-byte letter, a carriage return and a line feed at the end: the places before and behind the feed. -/
theorem ofOffset_identifies_last_feed :
    (ofOffset "é\r\n".toList 3 = ⟨1, 3⟩ ∧ ofOffset "é\r\n".toList 4 = ⟨2, 1⟩) ∧
    (ofOffset "é\r\n".toList 3).rank < (ofOffset "é\r\n".toList 4).rank ∧
    offset? "é\r\n".toList ⟨2, 1⟩ = some 4 ∧ ofOffset "é\r\n".toList 9 = ⟨2, 1⟩ := by
  have hfeed : ofOffset "é\r\n".toList 3 = ⟨1, 3⟩ := by decide
  have hend : ofOffset "é\r\n".toList 4 = ⟨2, 1⟩ := by decide
  obtain ⟨hlt, hback, hbeyond⟩ := ofOffset_identifies "é\r\n".toList
  refine ⟨⟨hfeed, hend⟩, hlt 3 4 (by decide) (by decide) (by decide) (by decide), ?_, ?_⟩
  · exact hend ▸ hback 4 (by decide) (by decide)
  · exact (hbeyond 9 (by decide)).trans hend

end SchemaModels.Position
