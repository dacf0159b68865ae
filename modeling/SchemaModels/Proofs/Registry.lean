import Mathlib.Data.List.Basic
import Mathlib.Data.List.Induction
import SchemaModels.Registry

/-! What each operation of a registry does to the names, their places and the values under them, and
names in order of first arrival. -/

namespace SchemaModels
set_option autoImplicit false

/-! ## Names in order of first arrival -/

theorem eraseDups_snoc (xs : List String) (x : String) :
    (xs ++ [x]).eraseDups = if x ∈ xs then xs.eraseDups else xs.eraseDups ++ [x] := by
  rw [List.eraseDups_append]
  by_cases h : x ∈ xs <;> simp [List.removeAll, h, List.eraseDups_cons]

theorem nodup_eraseDups (xs : List String) : xs.eraseDups.Nodup := by
  induction xs using List.reverseRecOn with
  | nil => exact List.nodup_nil
  | append_singleton xs x ih =>
    rw [eraseDups_snoc]
    split
    · exact ih
    · next hx =>
      refine List.nodup_append.mpr ⟨ih, List.pairwise_singleton _ x, fun y hy z hz => ?_⟩
      rw [List.mem_singleton.mp hz]
      exact fun h => hx (h ▸ List.mem_eraseDups.mp hy)

theorem eraseDups_of_nodup {xs : List String} (h : xs.Nodup) : xs.eraseDups = xs := by
  induction xs using List.reverseRecOn with
  | nil => rfl
  | append_singleton xs x ih =>
    obtain ⟨hxs, -, hx⟩ := List.nodup_append.mp h
    rw [eraseDups_snoc, if_neg fun hmem => hx x hmem x List.mem_cons_self rfl, ih hxs]

theorem eraseDups_filter (p : String → Bool) (xs : List String) : (xs.filter p).eraseDups = xs.eraseDups.filter p := by
  induction xs using List.reverseRecOn with
  | nil => rfl
  | append_singleton xs x ih =>
    rw [List.filter_append, eraseDups_snoc]
    by_cases hp : p x = true
    · rw [List.filter_cons_of_pos hp, List.filter_nil, eraseDups_snoc, ih]
      by_cases hx : x ∈ xs
      · rw [if_pos (List.mem_filter.mpr ⟨hx, hp⟩), if_pos hx]
      · rw [if_neg fun hn => hx (List.mem_filter.mp hn).1, if_neg hx, List.filter_append, List.filter_cons_of_pos hp,
          List.filter_nil]
    · rw [List.filter_cons_of_neg hp, List.filter_nil, List.append_nil, ih]
      split
      · rfl
      · rw [List.filter_append, List.filter_cons_of_neg hp, List.filter_nil, List.append_nil]

namespace Registry

variable {α : Type}

/-! ## Names and places -/

theorem contains_iff (r : Registry α) (name : String) : r.contains name = true ↔ name ∈ r.names := by
  simp [contains, names]

theorem names_nodup (r : Registry α) : r.names.Nodup :=
  r.distinct

theorem names_put (r : Registry α) (name : String) (value : α) :
    (r.put name value).names = if name ∈ r.names then r.names else r.names ++ [name] :=
  names_putRow name value r.rows

theorem names_offer (r : Registry α) (name : String) (value : α) :
    (r.offer name value).names = if name ∈ r.names then r.names else r.names ++ [name] := by
  unfold offer
  by_cases h : name ∈ r.names
  · rw [if_pos ((r.contains_iff name).mpr h), if_pos h]
  · rw [if_neg (fun hc => h ((r.contains_iff name).mp hc)), names_put]

theorem names_modify (r : Registry α) (name : String) (f : α → α) :
    (r.modify name f).names = r.names := by
  simp only [names, modify, List.map_map]
  apply List.map_congr_left
  intro row _
  by_cases h : row.1 = name <;> simp [h]

theorem index_inj (r : Registry α) {name other : String} (h : name ∈ r.names) :
    r.index name = r.index other ↔ name = other :=
  List.idxOf_inj h

theorem getElem?_index (r : Registry α) {name : String} (h : name ∈ r.names) :
    r.names[r.index name]? = some name :=
  List.getElem?_idxOf h

/-- A name that is there keeps its place when another one is offered. -/
theorem index_offer (r : Registry α) (name : String) (value : α) {other : String}
    (h : other ∈ r.names) : (r.offer name value).index other = r.index other := by
  unfold index
  rw [names_offer]
  split
  · rfl
  · exact List.idxOf_append_of_mem h

/-! ## Values -/

theorem get?_eq_none_iff (r : Registry α) (name : String) : r.get? name = none ↔ name ∉ r.names := by
  simp only [get?, List.lookup_eq_none_iff, names, List.mem_map, not_exists, not_and]
  refine forall_congr' fun row => forall_congr' fun _ => ?_
  rw [bne_iff_ne, ne_comm]

theorem mem_names_iff (r : Registry α) {name : String} : name ∈ r.names ↔ ∃ value, r.get? name = some value := by
  rw [← not_iff_not, ← get?_eq_none_iff, Option.eq_none_iff_forall_ne_some, not_exists]

theorem lookup_row (name : String) (value : α) (rows : List (String × α)) (other : String) :
    ((name, value) :: rows).lookup other = if other = name then some value else rows.lookup other := by
  rw [List.lookup_cons]
  by_cases h : other = name
  · simp [h]
  · simp [beq_eq_false_iff_ne.mpr h, h]

theorem lookup_putRow (name : String) (value : α) (rows : List (String × α)) (other : String) :
    (putRow name value rows).lookup other = if other = name then some value else rows.lookup other := by
  induction rows with
  | nil => rw [putRow, lookup_row]
  | cons row rows ih =>
    obtain ⟨n, v⟩ := row
    by_cases hn : n = name
    · subst hn
      rw [putRow, if_pos rfl, lookup_row, lookup_row]
      split <;> rfl
    · rw [putRow, if_neg hn, lookup_row, lookup_row, ih]
      by_cases h : other = name
      · rw [if_pos h, if_pos h, if_neg (fun e => hn (e.symm.trans h))]
      · rw [if_neg h, if_neg h]

theorem get?_put (r : Registry α) (name : String) (value : α) (other : String) :
    (r.put name value).get? other = if other = name then some value else r.get? other :=
  lookup_putRow name value r.rows other

theorem get?_offer (r : Registry α) (name : String) (value : α) (other : String) :
    (r.offer name value).get? other =
      if other = name then some ((r.get? name).getD value) else r.get? other := by
  unfold offer
  by_cases h : name ∈ r.names
  · rw [if_pos ((r.contains_iff name).mpr h)]
    by_cases ho : other = name
    · obtain ⟨v, hv⟩ := r.mem_names_iff.mp h
      rw [if_pos ho, ho, hv, Option.getD_some]
    · rw [if_neg ho]
  · rw [if_neg (fun hc => h ((r.contains_iff name).mp hc)), get?_put,
      (r.get?_eq_none_iff name).mpr h, Option.getD_none]

theorem get?_modify (r : Registry α) (name : String) (f : α → α) (other : String) :
    (r.modify name f).get? other = if other = name then (r.get? other).map f else r.get? other := by
  unfold get? modify
  dsimp only
  induction r.rows with
  | nil => simp
  | cons row rows ih =>
    obtain ⟨n, v⟩ := row
    rw [List.map_cons]
    by_cases hn : n = name
    · subst hn
      rw [if_pos rfl, lookup_row, lookup_row, ih]
      by_cases h : other = n
      · rw [if_pos h, if_pos h, if_pos h, Option.map_some]
      · simp only [if_neg h]
    · rw [if_neg hn, lookup_row, lookup_row, ih]
      by_cases h : other = n
      · rw [if_pos h, if_pos h, if_neg (fun e => hn (h.symm.trans e))]
      · rw [if_neg h, if_neg h]

/-- The value at a place is the value under the name that stands there. -/
theorem getElem?_values (r : Registry α) {i : Nat} {name : String} (h : r.names[i]? = some name) :
    r.values[i]? = r.get? name := by
  have hdistinct := r.distinct
  unfold names at h
  unfold values get?
  generalize r.rows = rows at h hdistinct
  induction rows generalizing i with
  | nil => simp at h
  | cons row rows ih =>
    obtain ⟨n, v⟩ := row
    rw [List.map_cons, List.nodup_cons] at hdistinct
    cases i with
    | zero =>
      have hn : n = name := by simpa using h
      simp [hn]
    | succ i =>
      have h' : (rows.map Prod.fst)[i]? = some name := by simpa using h
      have hmem : name ∈ rows.map Prod.fst := List.mem_of_getElem? h'
      have hne : name ≠ n := fun e => hdistinct.1 (e ▸ hmem)
      rw [lookup_row, if_neg hne]
      simpa using ih h' hdistinct.2

/-- Looking up the names in order gives the values in order. -/
theorem filterMap_names (r : Registry α) : r.names.filterMap r.get? = r.values := by
  have hmap : r.names.map r.get? = r.values.map some := by
    have hlen : r.names.length = r.values.length := by simp [names, values]
    apply List.ext_getElem (by simpa using hlen)
    intro i hi _
    have hname : i < r.names.length := by simpa using hi
    have hvalue : i < r.values.length := hlen ▸ hname
    rw [List.getElem_map, List.getElem_map, ← r.getElem?_values (List.getElem?_eq_getElem hname),
      List.getElem?_eq_getElem hvalue]
  have hreduce := congrArg (List.filterMap id) hmap
  rwa [List.filterMap_map, List.filterMap_map, Function.id_comp, Function.id_comp, List.filterMap_some] at hreduce

/-- Names are distinct, so that a row is what its name is looked up as. -/
theorem get?_eq_some_iff (r : Registry α) {name : String} {value : α} :
    r.get? name = some value ↔ (name, value) ∈ r.rows := by
  obtain ⟨rows, hdistinct⟩ := r
  show rows.lookup name = some value ↔ (name, value) ∈ rows
  induction rows with
  | nil => simp
  | cons row rows ih =>
    obtain ⟨n, v⟩ := row
    rw [List.map_cons, List.nodup_cons] at hdistinct
    rw [lookup_row, List.mem_cons, Prod.mk.injEq, ← ih hdistinct.2]
    by_cases h : name = n
    · subst h
      have habsent : rows.lookup name ≠ some value := fun hfound =>
        hdistinct.1 (List.mem_map.mpr ⟨_, (ih hdistinct.2).mp hfound, rfl⟩)
      simp [habsent, eq_comm]
    · simp [h]

theorem get?_of_perm {r s : Registry α} (h : r.rows.Perm s.rows) : r.get? = s.get? := by
  funext name
  ext value
  rw [get?_eq_some_iff, get?_eq_some_iff, h.mem_iff]

theorem mem_values_iff (r : Registry α) {value : α} : value ∈ r.values ↔ ∃ name, r.get? name = some value := by
  simp only [values, List.mem_map, Prod.exists, exists_eq_right, get?_eq_some_iff]

/-- The last of the rows put under a name counts. -/
theorem get?_putAll_rows (r : Registry α) (rows : List (String × α)) (name : String) :
    (r.putAll rows).get? name = (rows.reverse.lookup name).or (r.get? name) := by
  induction rows generalizing r with
  | nil => rfl
  | cons row rows ih =>
    have hstep : (r.putAll (row :: rows)).get? name = ((r.put row.1 row.2).putAll rows).get? name := rfl
    rw [hstep, ih, get?_put, List.reverse_cons, List.lookup_append, lookup_row, Option.or_assoc]
    by_cases h : name = row.1 <;> simp [h]

theorem get?_putAll_registry (r s : Registry α) (name : String) :
    (r.putAll s.rows).get? name = (s.get? name).or (r.get? name) := by
  have hreverse : s.rows.reverse.lookup name = s.get? name := by
    have hdistinct : (s.rows.reverse.map Prod.fst).Nodup :=
      (s.rows.reverse_perm.map Prod.fst).nodup_iff.mpr s.distinct
    exact congrFun (get?_of_perm (r := ⟨s.rows.reverse, hdistinct⟩) s.rows.reverse_perm) name
  rw [get?_putAll_rows, hreverse]

theorem get?_offerAll (r : Registry α) (names : List String) (value : α) (name : String) :
    (names.foldl (fun r name => r.offer name value) r).get? name =
      (r.get? name).or (if name ∈ names then some value else none) := by
  induction names generalizing r with
  | nil => simp
  | cons other names ih =>
    rw [List.foldl_cons, ih, get?_offer]
    by_cases h : name = other
    · subst h
      cases r.get? name <;> simp
    · simp [h]

end Registry

end SchemaModels
