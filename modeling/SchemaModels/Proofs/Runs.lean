import SchemaModels.Run
import SchemaModels.Proofs.FileTree
import SchemaModels.Proofs.RoundTrip

/-! What runs of the command do to files. A run reads its settings and its schema, and all else it does follows
from the module that these give: it prints the module, compares it with the output file or writes it there.
Only a write that succeeds changes a file, and only the output file; unless the output is one of the files
that the run reads, the next run finds it up to date. -/

namespace SchemaModels
set_option autoImplicit false

/-! ## Arguments -/

namespace CommandLine

theorem exists_finish {step : Step} {args : List String} {inv : Invocation} (h : readAll step args = .ok inv) :
    ∃ c : Collected, c.finish = .ok inv := by
  -- Whatever has been collected, reading ends in `finish` or in a refusal.
  induction args generalizing step with
  | nil =>
    cases step with
    | next c => exact ⟨c, h⟩
    | awaiting c option name => cases h
  | cons text texts ih =>
    cases step with
    | next c =>
      rw [readAll] at h
      split at h
      · split at h
        · next c _ => exact ⟨c, h⟩
        · cases h
      · split at h
        · exact ih h
        · cases h
    | awaiting c option name =>
      rw [readAll] at h
      split at h
      · cases h
      · split at h
        · exact ih h
        · cases h

theorem exists_output_of_check {args : List String} {inv : Invocation} (h : parse args = .ok inv)
    (hcheck : inv.check = true) : ∃ path, inv.output = some path := by
  obtain ⟨c, hc⟩ := exists_finish h
  unfold Collected.finish at hc
  split at hc
  · cases hc
  · split at hc
    · cases hc
    · next hoption =>
      cases hc
      have hchecked : c.check = true := hcheck
      rw [hchecked, Bool.true_and, Bool.not_eq_true, Option.isNone_eq_false_iff] at hoption
      exact Option.isSome_iff_exists.mp hoption

end CommandLine

namespace Invocation

variable {inv : Invocation}

/-! ## Decisions -/

/-- The settings file that a run looks for. -/
def settingsPath (inv : Invocation) : String :=
  inv.config.getD defaultConfig

theorem discover_congr {read read' : String → FileText} (h : read' inv.settingsPath = read inv.settingsPath) :
    SettingsFile.discover read' inv.config = SettingsFile.discover read inv.config := by
  unfold settingsPath at h
  cases hconfig : inv.config with
  | none =>
    rw [hconfig, Option.getD_none] at h
    simp only [SettingsFile.discover, SettingsFile.load, h]
  | some path =>
    rw [hconfig, Option.getD_some] at h
    simp only [SettingsFile.discover, SettingsFile.load, h]

/-- The module of a run is told by what it reads at the paths of its settings and its schema. -/
theorem moduleText_congr {read read' : String → FileText} (hsettings : read' inv.settingsPath = read inv.settingsPath)
    (hschema : read' inv.schema = read inv.schema) : inv.moduleText read' = inv.moduleText read := by
  simp only [moduleText, settings, discover_congr hsettings, hschema]

section Decided

variable {read : String → FileText} {text path : String} (hmodule : inv.moduleText read = .ok text)
  (houtput : inv.output = some path)
include hmodule houtput

theorem decision_check (hcheck : inv.check = true) :
    inv.decision read =
      match read path with
      | .error fault => .error (.unreadable path fault)
      | .ok existing => .ok (if existing = text then .upToDate else .outOfDate path) := by
  unfold decision
  rw [hmodule, houtput, hcheck]
  show ((read path).mapError _ >>= fun existing => pure _) = _
  cases read path <;> rfl

theorem decision_write (hcheck : inv.check = false) :
    inv.decision read =
      if (read path).isDirectory then .error (.outputIsDirectory path) else .ok (.write path text) := by
  unfold decision
  rw [hmodule, houtput, hcheck]
  rfl

end Decided

theorem decision_of_error {read : String → FileText} {error : RunError} (h : inv.moduleText read = .error error) :
    inv.decision read = .error error := by
  unfold decision
  rw [h]
  rfl

/-! ## Places that a run reads -/

theorem place_defaultConfig (tree : FileTree) : tree.place defaultConfig = .ok (workingPlace ++ [defaultConfig]) :=
  tree.place_name rfl (by decide +kernel) (by decide) (by decide)

theorem exists_text_of_settings {read : String → FileText} {path : String} {settings : Settings}
    (hconfig : inv.config = some path) (h : inv.settings read = .ok settings) : ∃ text, read path = .ok text := by
  unfold Invocation.settings at h
  rw [hconfig, SettingsFile.discover, SettingsFile.load] at h
  cases hread : read path with
  | error fault =>
    rw [hread] at h
    cases h
  | ok text => exact ⟨text, rfl⟩

theorem exists_places {tree : FileTree} {text : String} (h : inv.moduleText tree.read = .ok text) :
    (∃ found, tree.place inv.settingsPath = .ok found) ∧ ∃ found, tree.place inv.schema = .ok found := by
  unfold moduleText at h
  cases hsettings : inv.settings tree.read with
  | error error =>
    rw [hsettings] at h
    cases h
  | ok settings =>
    rw [hsettings] at h
    -- Only the default settings file may be missing, and then it still has a place.
    constructor
    · cases hconfig : inv.config with
      | none => exact ⟨_, by rw [settingsPath, hconfig]; exact place_defaultConfig tree⟩
      | some path =>
        obtain ⟨text, hread⟩ := exists_text_of_settings hconfig hsettings
        rw [settingsPath, hconfig]
        exact FileTree.exists_place_of_read hread
    · cases hschema : tree.read inv.schema with
      | error fault =>
        rw [hschema] at h
        cases h
      | ok schema => exact FileTree.exists_place_of_read hschema

/-- A write to another place leaves a run the module that it had. -/
theorem moduleText_put {tree : FileTree} {place : Place} (hnode : tree.node? place ≠ some .directory) (node : FileNode)
    (hsettings : tree.place inv.settingsPath ≠ .ok place) (hschema : tree.place inv.schema ≠ .ok place) {text : String}
    (h : inv.moduleText tree.read = .ok text) : inv.moduleText (tree.put place node).read = .ok text := by
  obtain ⟨⟨settingsPlace, hsettingsPlace⟩, schemaPlace, hschemaPlace⟩ := exists_places h
  have hne : ∀ {path found}, tree.place path = .ok found → tree.place path ≠ .ok place → found ≠ place := by
    rintro path found hfound hother rfl
    exact hother hfound
  rw [← h]
  exact moduleText_congr (FileTree.read_put_of_ne hnode node hsettingsPlace (hne hsettingsPlace hsettings))
    (FileTree.read_put_of_ne hnode node hschemaPlace (hne hschemaPlace hschema))

/-! ## Runs -/

theorem run_of_error {tree : FileTree} {error : RunError} (h : inv.decision tree.read = .error error) :
    inv.run tree = (.failure error, tree) := by
  rw [run, h]

theorem run_unchanged (tree : FileTree) (h : (inv.run tree).1.exitCode ≠ 0) : (inv.run tree).2 = tree := by
  unfold run at h ⊢
  split at h <;> try rfl
  split at h
  · exact absurd rfl h
  · rfl

/-- A run with a check changes nothing, and succeeds if the output file holds the module. -/
theorem run_check {path : String} (houtput : inv.output = some path) (hcheck : inv.check = true) (tree : FileTree) :
    (inv.run tree).2 = tree ∧
      ((inv.run tree).1.exitCode = 0 ↔ ∃ text, inv.moduleText tree.read = .ok text ∧ tree.read path = .ok text) := by
  cases hmodule : inv.moduleText tree.read with
  | error error =>
    rw [run_of_error (decision_of_error hmodule)]
    simp [Outcome.exitCode]
  | ok text =>
    have hdecision := decision_check hmodule houtput hcheck
    cases hread : tree.read path with
    | error fault =>
      rw [hread] at hdecision
      rw [run_of_error hdecision]
      simp [Outcome.exitCode]
    | ok existing =>
      rw [hread] at hdecision
      by_cases hsame : existing = text
      · simp [run, hdecision, hsame, Outcome.exitCode]
      · simp [run, hdecision, hsame, Outcome.exitCode]

/-- A run that writes its output and succeeds writes its module. -/
theorem write_of_run {path printed : String} (houtput : inv.output = some path) (hcheck : inv.check = false)
    {tree after : FileTree} (h : inv.run tree = (.success printed, after)) :
    ∃ text, inv.moduleText tree.read = .ok text ∧ tree.write path text = .ok after := by
  cases hmodule : inv.moduleText tree.read with
  | error error =>
    rw [run_of_error (decision_of_error hmodule)] at h
    cases h
  | ok text =>
    have hdecision := decision_write hmodule houtput hcheck
    refine ⟨text, rfl, ?_⟩
    split at hdecision
    · rw [run_of_error hdecision] at h
      cases h
    · rw [run, hdecision] at h
      dsimp only at h
      split at h
      · next hwrite =>
        cases h
        exact hwrite
      · cases h

/-- Unless the output is a file that the run reads, what a run has written is up to date, and the next run
writes the same. -/
theorem run_again {path text : String} (houtput : inv.output = some path) (hcheck : inv.check = false)
    {tree : FileTree} {place : Place} (htarget : tree.target path = .ok place)
    (hsettings : tree.place inv.settingsPath ≠ .ok place) (hschema : tree.place inv.schema ≠ .ok place)
    (hmodule : inv.moduleText tree.read = .ok text) {after : FileTree}
    (hafter : after = tree.put place (.file text.toUTF8)) :
    { inv with check := true }.run after = (.success "", after) ∧ inv.run after = (.success "", after) := by
  obtain ⟨-, hplace, hnode⟩ := FileTree.target_eq_ok_iff.mp htarget
  have hagain : inv.moduleText after.read = .ok text := hafter ▸ moduleText_put hnode _ hsettings hschema hmodule
  have hread : after.read path = .ok text := hafter ▸ FileTree.read_put_self hnode hplace text
  have hwrite : after.write path text = .ok after :=
    FileTree.write_write (FileTree.write_eq_ok_iff.mpr ⟨place, htarget, hafter⟩)
  constructor
  · have hdecision := @decision_check { inv with check := true } _ _ _ hagain houtput rfl
    rw [hread] at hdecision
    simp only [run, hdecision, if_true]
  · have hdecision := decision_write hagain houtput hcheck
    rw [hread] at hdecision
    simp only [run, hdecision, FileText.isDirectory, Bool.false_eq_true, if_false, hwrite]

/-- Runs are safe on files. One that fails or finds its output out of date changes nothing; nor does one with
a check, which succeeds just if the output file holds the text of the module. One that writes changes the
output file only, which then holds that text, and unless that is a file which the run reads, a check then
finds it up to date and a second write changes nothing. -/
theorem run_files {args : List String} (hargs : CommandLine.parse args = .ok inv) (tree : FileTree) :
    ((inv.run tree).1.exitCode ≠ 0 → (inv.run tree).2 = tree) ∧
    (inv.check = true → (inv.run tree).2 = tree ∧ ∃ path, inv.output = some path ∧
      ((inv.run tree).1.exitCode = 0 ↔
        ∃ text, inv.moduleText tree.read = .ok text ∧ tree.read path = .ok text)) ∧
    ∀ path printed after, inv.output = some path → inv.check = false → inv.run tree = (.success printed, after) →
      ∃ text place, inv.moduleText tree.read = .ok text ∧ tree.place path = .ok place ∧
        after.node? place = some (.file text.toUTF8) ∧ after.read path = .ok text ∧
        (∀ other, other ≠ place → after.node? other = tree.node? other) ∧
        (tree.place inv.schema ≠ .ok place → tree.place inv.settingsPath ≠ .ok place →
          { inv with check := true }.run after = (.success "", after) ∧ inv.run after = (.success "", after)) := by
  refine ⟨run_unchanged tree, fun hcheck => ?_, fun path printed after houtput hcheck hrun => ?_⟩
  · obtain ⟨path, houtput⟩ := CommandLine.exists_output_of_check hargs hcheck
    obtain ⟨hsame, hsuccess⟩ := run_check houtput hcheck tree
    exact ⟨hsame, path, houtput, hsuccess⟩
  · obtain ⟨text, hmodule, hwrite⟩ := write_of_run houtput hcheck hrun
    obtain ⟨place, htarget, hafter⟩ := FileTree.write_eq_ok_iff.mp hwrite
    obtain ⟨-, hplace, hnode⟩ := FileTree.target_eq_ok_iff.mp htarget
    refine ⟨text, place, hmodule, hplace, hafter ▸ FileTree.node?_put_self hnode _,
      hafter ▸ FileTree.read_put_self hnode hplace text, fun other hother => ?_, fun hschema hsettings => ?_⟩
    · exact hafter ▸ FileTree.node?_put_of_ne hother _
    · exact run_again houtput hcheck htarget hsettings hschema hmodule hafter

/-- An enum is written beside its schema. -/
theorem run_files_enum :
    let inv : Invocation := { schema := "s.graphql", output := some "m.py" }
    let doc : Document := ⟨[.enum { name := "E", values := [{ name := "A" }] }]⟩
    let tree := FileTree.empty.put (workingPlace ++ ["s.graphql"]) (.file doc.print.toUTF8)
    CommandLine.parse ["s.graphql", "-o", "m.py"] = .ok inv ∧ ∃ after, inv.run tree = (.success "", after) ∧
      after.read "m.py" = .ok (doc.pythonModule {}) ∧ { inv with check := true }.run after = (.success "", after) ∧
      inv.run after = (.success "", after) := by
  intro inv doc tree
  have hargs : CommandLine.parse ["s.graphql", "-o", "m.py"] = .ok inv := rfl
  have hplace : ∀ (tree : FileTree) (name : String), name ∈ ["s.graphql", "m.py", defaultConfig] →
      tree.place name = .ok (workingPlace ++ [name]) := by
    intro tree name hname
    simp only [List.mem_cons, List.not_mem_nil, or_false] at hname
    rcases hname with rfl | rfl | rfl <;> exact tree.place_name rfl (by decide +kernel) (by decide) (by decide)
  have hschema : tree.read "s.graphql" = .ok doc.print :=
    FileTree.read_put_self (by decide) (hplace _ _ (by decide)) _
  have habsent : ∀ name ∈ ["m.py", defaultConfig], tree.read name = .error .notFound := by
    intro name hname
    rw [FileTree.read, hplace tree name (List.mem_cons_of_mem _ hname)]
    simp only [List.mem_cons, List.not_mem_nil, or_false] at hname
    rcases hname with rfl | rfl <;> rfl
  have hsettings : inv.settings tree.read = .ok {} := by
    unfold Invocation.settings SettingsFile.discover
    rw [habsent defaultConfig (by decide)]
    rfl
  have hwell : doc.WellFormed := by
    refine List.forall_mem_singleton.mpr ⟨(by decide : IsName "E".toList), List.forall_mem_nil _, ?_⟩
    exact List.forall_mem_singleton.mpr ⟨(by decide : IsName "A".toList), List.forall_mem_nil _⟩
  have hmodule : inv.moduleText tree.read = .ok (doc.pythonModule {}) := by
    unfold moduleText
    rw [hsettings, hschema]
    show (generate {} doc.print).mapError _ = _
    rw [generate, Document.parse_print hwell]
    rfl
  have hrun : inv.run tree =
      (.success "", tree.put (workingPlace ++ ["m.py"]) (.file (doc.pythonModule {}).toUTF8)) := by
    have hnode : tree.node? (workingPlace ++ ["m.py"]) = none := rfl
    have htarget : tree.target "m.py" = .ok (workingPlace ++ ["m.py"]) :=
      FileTree.target_eq_ok_iff.mpr ⟨by decide +kernel, hplace tree "m.py" (by decide), by simp [hnode]⟩
    have hwrite : tree.write "m.py" (doc.pythonModule {}) = .ok _ :=
      FileTree.write_eq_ok_iff.mpr ⟨_, htarget, rfl⟩
    rw [run, decision_write hmodule rfl rfl, habsent "m.py" (by decide)]
    simp only [FileText.isDirectory, Bool.false_eq_true, if_false, hwrite]
  obtain ⟨-, -, hwritten⟩ := run_files hargs tree
  obtain ⟨text, place, htext, hfound, -, hread, -, hagain⟩ := hwritten _ _ _ rfl rfl hrun
  have hschemaPlace : tree.place "s.graphql" ≠ .ok place := by
    rw [hplace tree _ (by decide), ← hfound, hplace tree _ (by decide)]
    decide
  have hconfigPlace : tree.place defaultConfig ≠ .ok place := by
    rw [hplace tree _ (by decide), ← hfound, hplace tree _ (by decide)]
    decide
  rw [← Except.ok.inj (hmodule.symm.trans htext)] at hread
  exact ⟨hargs, _, hrun, hread, hagain hschemaPlace hconfigPlace⟩

end Invocation

end SchemaModels
