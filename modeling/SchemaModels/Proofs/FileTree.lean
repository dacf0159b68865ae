import SchemaModels.FileTree

/-! Writing a file and reading it back. A path leads through directories only, and a file is never put in
the place of a directory, so every path that leads somewhere leads to the same place after a write. What is
read there is what was there before, but at the place written to, where it is the text written. -/

namespace SchemaModels.FileTree
set_option autoImplicit false

variable {tree : FileTree} {place : Place}

/-! ## One node -/

theorem lookup_filter_ne {other : Place} (h : other ≠ place) (nodes : List (Place × FileNode)) :
    (nodes.filter (·.1 ≠ place)).lookup other = nodes.lookup other := by
  induction nodes with
  | nil => rfl
  | cons row nodes ih =>
    obtain ⟨p, n⟩ := row
    by_cases hp : p = place
    · have hother : (other == p) = false := by simpa [hp] using h
      rw [List.filter_cons_of_neg (by simpa using hp), List.lookup_cons, hother, ih]
    · rw [List.filter_cons_of_pos (by simpa using hp), List.lookup_cons, List.lookup_cons, ih]

theorem node?_put_of_ne {other : Place} (h : other ≠ place) (node : FileNode) :
    (tree.put place node).node? other = tree.node? other := by
  have hother : (other == place) = false := by simpa using h
  simp only [node?, put, List.lookup_cons, hother, lookup_filter_ne h]

/-- The root and the working directory apart, what is put at a place is found there. -/
theorem node?_put_self (h : tree.node? place ≠ some .directory) (node : FileNode) :
    (tree.put place node).node? place = some node := by
  have hfixed : ¬(place = [] ∨ place = workingPlace) := fun hplace => h (if_pos hplace)
  simp [node?, hfixed, put]

theorem put_put {node : FileNode} : (tree.put place node).put place node = tree.put place node := by
  simp [put]

/-! ## Paths -/

theorem descend_put (h : tree.node? place ≠ some .directory) (node : FileNode) {names : List String}
    {start found : Place} (hfound : tree.descend start names = .ok found) :
    (tree.put place node).descend start names = .ok found := by
  -- All that is passed on the way are directories, and none of them is the place put to.
  have hkept : ∀ other, tree.node? other = some .directory → (tree.put place node).node? other = some .directory := by
    intro other hother
    have hne : other ≠ place := by
      rintro rfl
      exact h hother
    rw [node?_put_of_ne hne, hother]
  fun_induction descend tree start names with
  | case1 start => exact hfound
  | case2 start name names hnode => cases hfound
  | case3 start name names content hnode => cases hfound
  | case4 start name names hnode hstay ih =>
    rw [descend, hkept start hnode]
    simpa only [hstay, if_true] using ih hfound
  | case5 start names hnode hstay ih =>
    rw [descend, hkept start hnode]
    simpa only [hstay, if_true, if_false] using ih hfound
  | case6 start name names hnode hstay hup hlong => cases hfound
  | case7 start name names hnode hstay hup hlong ih =>
    rw [descend, hkept start hnode]
    simpa only [hstay, hup, hlong, if_false] using ih hfound

theorem place_put (h : tree.node? place ≠ some .directory) (node : FileNode) {path : String} {found : Place}
    (hfound : tree.place path = .ok found) : (tree.put place node).place path = .ok found := by
  unfold FileTree.place at hfound ⊢
  cases hstart : pathStart path with
  | error fault =>
    rw [hstart] at hfound
    cases hfound
  | ok start =>
    rw [hstart] at hfound
    exact descend_put h node hfound

/-- A name by itself is that of a place in the working directory, whether something is there or not. -/
theorem place_name (tree : FileTree) {name : String} (hstart : pathStart name = .ok workingPlace)
    (hname : pathNames name = [name]) (hplain : name ∉ ["", ".", ".."]) (hshort : name.utf8ByteSize ≤ maxNameBytes) :
    tree.place name = .ok (workingPlace ++ [name]) := by
  have hnode : tree.node? workingPlace = some .directory := if_pos (Or.inr rfl)
  simp only [List.mem_cons, List.not_mem_nil, or_false, not_or] at hplain
  rw [FileTree.place, hstart, hname]
  show tree.descend workingPlace [name] = _
  rw [descend, hnode]
  simp only [hplain, or_self, if_false, Nat.not_lt.mpr hshort]
  rfl

theorem exists_place_of_read {path text : String} (h : tree.read path = .ok text) :
    ∃ found, tree.place path = .ok found := by
  unfold read at h
  split at h
  · cases h
  · next found hfound => exact ⟨found, hfound⟩

/-! ## Reading after writing -/

theorem read_put_of_ne (h : tree.node? place ≠ some .directory) (node : FileNode) {path : String} {found : Place}
    (hfound : tree.place path = .ok found) (hne : found ≠ place) :
    (tree.put place node).read path = tree.read path := by
  rw [read, read, place_put h node hfound, hfound]
  simp only [node?_put_of_ne hne]

theorem fromUTF8?_toUTF8 (text : String) : String.fromUTF8? text.toUTF8 = some text :=
  dif_pos text.isValidUTF8

theorem read_put_self (h : tree.node? place ≠ some .directory) {path : String} (hplace : tree.place path = .ok place)
    (text : String) : (tree.put place (.file text.toUTF8)).read path = .ok text := by
  rw [read, place_put h _ hplace]
  simp only [node?_put_self h, fromUTF8?_toUTF8]

/-- A file can be written at a path without a slash at its end that leads to no directory. -/
theorem target_eq_ok_iff {path : String} :
    tree.target path = .ok place ↔
      (pathNames path).getLast? ≠ some "" ∧ tree.place path = .ok place ∧ tree.node? place ≠ some .directory := by
  unfold target FileTree.place
  cases pathStart path with
  | error fault => simp [bind, Except.bind]
  | ok start =>
    dsimp only [bind, Except.bind]
    by_cases hslash : (pathNames path).getLast? = some ""
    · rw [if_pos hslash]
      constructor
      · intro h
        split at h <;> cases h
      · exact fun h => absurd hslash h.1
    · rw [if_neg hslash]
      cases tree.descend start (pathNames path) with
      | error fault => simp
      | ok found =>
        dsimp only
        constructor
        · intro h
          split at h
          · cases h
          · next hnode =>
            cases h
            exact ⟨hslash, rfl, hnode⟩
        · rintro ⟨-, hfound, hnode⟩
          cases hfound
          rw [if_neg hnode]
          rfl

theorem target_put {path : String} (h : tree.target path = .ok place) {node : FileNode} (hnode : node ≠ .directory) :
    (tree.put place node).target path = .ok place := by
  obtain ⟨hslash, hplace, hold⟩ := target_eq_ok_iff.mp h
  refine target_eq_ok_iff.mpr ⟨hslash, place_put hold node hplace, ?_⟩
  rw [node?_put_self hold]
  exact fun he => hnode (Option.some.inj he)

/-- A write puts the text at the place of its path, or fails and gives no tree. -/
theorem write_eq_ok_iff {path text : String} {after : FileTree} :
    tree.write path text = .ok after ↔
      ∃ place, tree.target path = .ok place ∧ after = tree.put place (.file text.toUTF8) := by
  unfold write
  cases tree.target path with
  | error fault => simp [bind, Except.bind]
  | ok place =>
    constructor
    · intro h
      cases h
      exact ⟨place, rfl, rfl⟩
    · rintro ⟨_, h, rfl⟩
      cases h
      rfl

theorem write_write {path text : String} {after : FileTree} (h : tree.write path text = .ok after) :
    after.write path text = .ok after := by
  obtain ⟨place, htarget, rfl⟩ := write_eq_ok_iff.mp h
  exact write_eq_ok_iff.mpr ⟨place, target_put htarget nofun, put_put.symm⟩

end SchemaModels.FileTree
