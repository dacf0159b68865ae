import SchemaModels.Proofs.Runs
import SchemaModels.Proofs.ScalarLookup
import SchemaModels.Proofs.SettingsInTurn

/-! Settings of a run. They are read in the order in which they stand in the settings file and then on the
command line, with the enum style first in the file and last on the command line. The first that is invalid
ends the run before the schema is read. If none is, the last that sets a scalar or the style counts, so that
the command line wins over the file and both win over what a schema starts with. -/

namespace SchemaModels
set_option autoImplicit false

/-! ## Order of settings -/

def SettingsFile.rows (file : SettingsFile) : List Setting :=
  file.scalars.map fun row => .row row.1 row.2

namespace Invocation

variable {inv : Invocation} {file : SettingsFile} {settings : Settings} {doc : Document} {name : String}
  {found : Option ScalarTarget}

def entries (inv : Invocation) : List Setting :=
  inv.scalars.map .entry

/-- All settings of a run, in the order in which they are read. -/
def written (inv : Invocation) (file : SettingsFile) : List Setting :=
  file.enumStyle.toList.map .style ++ (file.rows ++ (inv.entries ++ inv.enumStyle.toList.map .style))

/-- What a name is looked up as: as the last entry of the command line has it, else as the settings file has
it, else as built in, else as `Any` if the document defines the scalar. -/
inductive Resolves (inv : Invocation) (file : SettingsFile) (doc : Document) (name : String) :
    Option ScalarTarget → Prop
  | commandLine {target : ScalarTarget} : Setting.LastSets name inv.entries target →
    Resolves inv file doc name (some target)
  | file {target : ScalarTarget} : Setting.Unset name inv.entries → Setting.LastSets name file.rows target →
    Resolves inv file doc name (some target)
  | builtin {target : ScalarTarget} : Setting.Unset name inv.entries → Setting.Unset name file.rows →
    ScalarTable.builtin.get? name = some target → Resolves inv file doc name (some target)
  | defined : Setting.Unset name inv.entries → Setting.Unset name file.rows →
    ScalarTable.builtin.get? name = none → name ∈ doc.scalarNames → Resolves inv file doc name (some .any)
  | unknown : Setting.Unset name inv.entries → Setting.Unset name file.rows →
    ScalarTable.builtin.get? name = none → name ∉ doc.scalarNames → Resolves inv file doc name none

theorem addAll_rows (file : SettingsFile) (settings : Settings) :
    settings.addAll file.rows =
      (file.scalars.mapM fun row : String × String => do return (row.1, ← ScalarTarget.parse row.2)).map
        settings.setScalars := by
  have hstep : (fun (settings : Settings) (row : String × String) => settings.add (.row row.1 row.2)) =
      fun settings row => (do return (row.1, ← ScalarTarget.parse row.2)).map fun row : String × ScalarTarget =>
        settings.setScalar row.1 row.2 := by
    funext settings row
    rw [Settings.add]
    cases ScalarTarget.parse row.2 <;> rfl
  rw [← Setting.foldlM_setScalar, Settings.addAll, SettingsFile.rows, List.foldlM_map, hstep]

theorem addAll_entries (inv : Invocation) (settings : Settings) :
    settings.addAll inv.entries = (inv.scalars.mapM ScalarTarget.parseOverride).map settings.setScalars := by
  rw [← Setting.foldlM_setScalar, Settings.addAll, entries, List.foldlM_map]
  rfl

theorem toSettings_eq (file : SettingsFile) :
    file.toSettings = ({} : Settings).addAll (file.enumStyle.toList.map .style ++ file.rows) := by
  have hrows : ∀ style : EnumStyle, (do
      let rows ← file.scalars.mapM fun row : String × String => do return (row.1, ← ScalarTarget.parse row.2)
      return ({ enumStyle := style } : Settings).setScalars rows) =
        ({ enumStyle := style } : Settings).addAll file.rows := by
    intro style
    rw [addAll_rows]
    cases file.scalars.mapM fun row : String × String => do return (row.1, ← ScalarTarget.parse row.2) <;> rfl
  rw [Setting.addAll_append, Setting.addAll_style, SettingsFile.toSettings]
  cases file.enumStyle with
  | none => exact hrows .strEnum
  | some name =>
    dsimp only
    cases EnumStyle.parse name with
    | error error => rfl
    | ok style => exact hrows style

/-- The settings of a run are all that are written, added in turn. -/
theorem settings_eq {read : String → FileText} (hfile : SettingsFile.discover read inv.config = .ok file) :
    inv.settings read = (({} : Settings).addAll (inv.written file)).mapError .setting := by
  rw [written, ← List.append_assoc, Setting.addAll_append, ← toSettings_eq, settings, hfile]
  show (file.toSettings.mapError RunError.setting >>= fun base => _) = _
  cases file.toSettings with
  | error error => rfl
  | ok base =>
    show _ = (base.addAll (inv.entries ++ inv.enumStyle.toList.map .style)).mapError RunError.setting
    rw [Setting.addAll_append, addAll_entries]
    cases inv.scalars.mapM ScalarTarget.parseOverride with
    | error error => rfl
    | ok rows =>
      show _ = ((base.setScalars rows).addAll (inv.enumStyle.toList.map .style)).mapError RunError.setting
      rw [Setting.addAll_style]
      cases inv.enumStyle with
      | none => rfl
      | some name =>
        show ((EnumStyle.parse name).mapError RunError.setting >>= fun style => _) =
          ((EnumStyle.parse name).map _).mapError RunError.setting
        cases EnumStyle.parse name <;> rfl

/-! ## What the settings come to -/

section Written

variable (h : ({} : Settings).addAll (inv.written file) = .ok settings)
include h

/-- The settings on the way: behind the style of the file, its rows and the entries. -/
theorem exists_stages : ∃ styled rowed entered : Settings,
    ({} : Settings).addAll (file.enumStyle.toList.map .style) = .ok styled ∧ styled.addAll file.rows = .ok rowed ∧
      rowed.addAll inv.entries = .ok entered ∧ entered.addAll (inv.enumStyle.toList.map .style) = .ok settings := by
  obtain ⟨styled, hstyled, h⟩ := Setting.addAll_append_eq_ok_iff.mp h
  obtain ⟨rowed, hrowed, h⟩ := Setting.addAll_append_eq_ok_iff.mp h
  obtain ⟨entered, hentered, h⟩ := Setting.addAll_append_eq_ok_iff.mp h
  exact ⟨styled, rowed, entered, hstyled, hrowed, hentered, h⟩

theorem enumStyle_of_written :
    match inv.enumStyle.or file.enumStyle with
      | some name => name ∈ settings.enumStyle.names
      | none => settings.enumStyle = .strEnum := by
  obtain ⟨styled, rowed, entered, hstyled, hrowed, hentered, h⟩ := exists_stages h
  cases hinv : inv.enumStyle with
  | some name =>
    rw [hinv] at h
    exact Setting.mem_names_of_addAll h
  | none =>
    rw [hinv] at h
    cases h
    rw [Option.none_or]
    have hrows : ∀ s ∈ file.rows, ∀ name, s ≠ .style name := by
      rintro s hs name rfl
      simp [SettingsFile.rows] at hs
    have hentries : ∀ s ∈ inv.entries, ∀ name, s ≠ .style name := by
      rintro s hs name rfl
      simp [entries] at hs
    rw [Setting.enumStyle_addAll hentries hentered, Setting.enumStyle_addAll hrows hrowed]
    cases hfile : file.enumStyle with
    | some name =>
      rw [hfile] at hstyled
      exact Setting.mem_names_of_addAll hstyled
    | none =>
      rw [hfile] at hstyled
      cases hstyled
      rfl

theorem get?_of_written (name : String) :
    (∀ target, Setting.LastSets name inv.entries target → settings.scalars.get? name = some target) ∧
    (Setting.Unset name inv.entries →
      (∀ target, Setting.LastSets name file.rows target → settings.scalars.get? name = some target) ∧
      (Setting.Unset name file.rows → settings.scalars.get? name = none)) := by
  -- from the last stage back to the first, until one is found that sets the name
  obtain ⟨styled, rowed, entered, hstyled, hrowed, hentered, h⟩ := exists_stages h
  rw [Setting.get?_addAll_of_unset (Setting.unset_style name _) h]
  refine ⟨fun target hsets => hsets.get?_addAll hentered, fun hentries => ?_⟩
  rw [Setting.get?_addAll_of_unset hentries hentered]
  refine ⟨fun target hsets => hsets.get?_addAll hrowed, fun hrows => ?_⟩
  rw [Setting.get?_addAll_of_unset hrows hrowed, Setting.get?_addAll_of_unset (Setting.unset_style name _) hstyled]
  rfl

theorem get?_of_resolves (hresolves : Resolves inv file doc name found) :
    (doc.scalarTable settings).get? name = found := by
  obtain ⟨hcommand, hunset⟩ := get?_of_written h name
  rw [Document.scalarTable, ScalarTable.get?_ofDocument]
  cases hresolves with
  | commandLine hsets => rw [hcommand _ hsets, Option.some_or]
  | file hentries hsets => rw [(hunset hentries).1 _ hsets, Option.some_or]
  | builtin hentries hrows hbuiltin => rw [(hunset hentries).2 hrows, hbuiltin, Option.none_or, Option.some_or]
  | defined hentries hrows hbuiltin hdefined =>
    rw [(hunset hentries).2 hrows, hbuiltin, Option.none_or, Option.none_or, if_pos hdefined]
  | unknown hentries hrows hbuiltin hdefined =>
    rw [(hunset hentries).2 hrows, hbuiltin, Option.none_or, Option.none_or, if_neg hdefined]

end Written

theorem exists_resolves (inv : Invocation) (file : SettingsFile) (doc : Document) (name : String) :
    ∃ found, Resolves inv file doc name found := by
  rcases Setting.lastSets_or_unset name inv.entries with ⟨target, hsets⟩ | hentries
  · exact ⟨_, .commandLine hsets⟩
  rcases Setting.lastSets_or_unset name file.rows with ⟨target, hsets⟩ | hrows
  · exact ⟨_, .file hentries hsets⟩
  cases hbuiltin : ScalarTable.builtin.get? name with
  | some target => exact ⟨_, .builtin hentries hrows hbuiltin⟩
  | none =>
    by_cases hdefined : name ∈ doc.scalarNames
    · exact ⟨_, .defined hentries hrows hbuiltin hdefined⟩
    · exact ⟨_, .unknown hentries hrows hbuiltin hdefined⟩

theorem get?_eq_iff_resolves (h : ({} : Settings).addAll (inv.written file) = .ok settings) :
    (doc.scalarTable settings).get? name = found ↔ Resolves inv file doc name found := by
  refine ⟨?_, get?_of_resolves h⟩
  rintro rfl
  obtain ⟨found, hfound⟩ := exists_resolves inv file doc name
  rwa [get?_of_resolves h hfound]

/-- The first invalid setting ends a run, whatever else there is to read. If none is invalid, the style is that
of the command line, else that of the file, else the default; a scalar becomes what it resolves to; and the
module shows no more of the scalars that are set, in particular not their order. -/
theorem run_settings {tree : FileTree} (hfile : SettingsFile.discover tree.read inv.config = .ok file) :
    (∀ error, Setting.FirstInvalid (inv.written file) error → ∀ other : FileTree,
      other.read inv.settingsPath = tree.read inv.settingsPath → inv.run other = (.failure (.setting error), other)) ∧
    ((∀ s ∈ inv.written file, ∀ error, ¬ s.Invalid error) → ∃ settings, inv.settings tree.read = .ok settings ∧
      (match inv.enumStyle.or file.enumStyle with
        | some name => name ∈ settings.enumStyle.names
        | none => settings.enumStyle = .strEnum) ∧
      (∀ schema doc, tree.read inv.schema = .ok schema → Document.parse schema = .ok doc →
        inv.moduleText tree.read = .ok (doc.pythonModule settings)) ∧
      ∀ doc : Document,
        (∀ name found, (doc.merge.scalarTable settings).get? name = found ↔ Resolves inv file doc name found) ∧
        ∀ other : Settings, other.enumStyle = settings.enumStyle →
          (∀ name, Resolves inv file doc name ((doc.merge.scalarTable other).get? name)) ∨
            other.scalars.rows.Perm settings.scalars.rows →
          doc.pythonModule other = doc.pythonModule settings) := by
  refine ⟨fun error hfirst other hother => ?_, fun hvalid => ?_⟩
  · have hsettings : inv.settings other.read = .error (.setting error) := by
      rw [settings_eq ((discover_congr hother).trans hfile), hfirst.addAll_eq]
      rfl
    refine run_of_error (decision_of_error ?_)
    rw [moduleText, hsettings]
    rfl
  · obtain ⟨settings, h⟩ := Setting.exists_addAll_eq hvalid {}
    have hsettings : inv.settings tree.read = .ok settings := by
      rw [settings_eq hfile, h]
      rfl
    refine ⟨settings, hsettings, enumStyle_of_written h, fun schema doc hschema hdoc => ?_, fun doc => ?_⟩
    · rw [moduleText, hsettings, hschema]
      show (generate settings schema).mapError _ = _
      rw [generate, hdoc]
      rfl
    · rw [Document.scalarTable_merge]
      refine ⟨fun name found => get?_eq_iff_resolves h, fun other hstyle hother => ?_⟩
      refine Document.pythonModule_congr hstyle ?_
      rcases hother with hresolves | hperm
      · funext name
        rw [← Document.scalarTable_merge, get?_of_resolves h (hresolves name)]
      · funext name
        rw [Document.scalarTable, Document.scalarTable, ScalarTable.get?_ofDocument, ScalarTable.get?_ofDocument,
          Registry.get?_of_perm hperm]

/-- Entries win over the file, and an entry without a target ends a run that has no schema to read. -/
theorem run_settings_overridden :
    let text := "enum_style = \"str-mixin\"\n[scalars]\nDate = \"str\"\nTime = \"str\"\n"
    let tree := FileTree.empty.put (workingPlace ++ [defaultConfig]) (.file text.toUTF8)
    let inv : Invocation := { schema := "s.graphql", scalars := ["Date=int", " Date = any"] }
    (∃ settings, inv.settings tree.read = .ok settings ∧ settings.enumStyle = .strMixin ∧ ∀ doc : Document,
      (doc.merge.scalarTable settings).get? "Date" = some .any ∧
      (doc.merge.scalarTable settings).get? "Time" = some (.named "str")) ∧
    { inv with scalars := ["Date=int", "Date"], enumStyle := some "enum" }.run tree =
      (.failure (.setting (.invalidScalar "Date" .noTarget)), tree) := by
  intro text tree inv
  let file : SettingsFile := ⟨some "str-mixin", [("Date", "str"), ("Time", "str")]⟩
  have hfile : SettingsFile.discover tree.read none = .ok file := by
    have hread : tree.read defaultConfig = .ok text := FileTree.read_put_self (by decide) (place_defaultConfig _) _
    have hparse : SettingsFile.parse? text = some file := by decide +kernel
    rw [SettingsFile.discover, SettingsFile.load, hread]
    simp only [FileText.isFile, if_true, SettingsFile.ofText, hparse]
  have hstyle : ∀ error, ¬ (Setting.style "str-mixin").Invalid error := by
    rintro error ⟨h⟩
    exact h .strMixin (by decide)
  have hrow : ∀ name, (Setting.row name "str").Sets name (.named "str") := fun name =>
    .row ⟨by decide +kernel, by decide, by decide, by decide⟩
  have hint : (Setting.entry "Date=int").Sets "Date" (.named "int") := by
    have hsides : ScalarTarget.Sides "Date=int" "Date" "int" := ⟨"Date", by decide, by decide, by decide +kernel⟩
    exact .entry hsides (by decide) ⟨by decide +kernel, by decide, by decide, by decide⟩
  have hany : (Setting.entry " Date = any").Sets "Date" .any := by
    have hsides : ScalarTarget.Sides " Date = any" "Date" " any" := ⟨" Date ", by decide, by decide, by decide +kernel⟩
    exact .entry hsides (by decide) (Or.inl (by decide +kernel))
  constructor
  · obtain ⟨-, hruns⟩ := @run_settings inv file tree hfile
    have hvalid : ∀ s ∈ inv.written file, ∀ error, ¬ s.Invalid error := by
      simp only [written, SettingsFile.rows, entries, file, inv, Option.toList, List.map_cons, List.map_nil,
        List.cons_append, List.nil_append, List.append_nil, List.forall_mem_cons]
      exact ⟨hstyle, (hrow _).valid, (hrow _).valid, hint.valid, hany.valid, List.forall_mem_nil _⟩
    obtain ⟨settings, hsettings, hname, -, hmodules⟩ := hruns hvalid
    refine ⟨settings, hsettings, ?_, fun doc => ⟨?_, ?_⟩⟩
    · have hmixin : "str-mixin" ∈ settings.enumStyle.names := hname
      cases henum : settings.enumStyle with
      | strMixin => rfl
      | strEnum =>
        rw [henum] at hmixin
        exact absurd hmixin (by decide)
    · exact ((hmodules doc).1 _ _).mpr (.commandLine (.later (.here hany (List.forall_mem_nil _))))
    · have hentries : Setting.Unset "Time" inv.entries := by
        refine List.forall_mem_cons.mpr ⟨fun target h => ?_, List.forall_mem_singleton.mpr fun target h => ?_⟩
        · exact absurd (h.unique hint).1 (by decide)
        · exact absurd (h.unique hany).1 (by decide)
      exact ((hmodules doc).1 _ _).mpr (.file hentries (.later (.here (hrow _) (List.forall_mem_nil _))))
  · obtain ⟨hfails, -⟩ :=
      @run_settings { inv with scalars := ["Date=int", "Date"], enumStyle := some "enum" } file tree hfile
    exact hfails _ (.later hstyle (.later (hrow _).valid (.later (hrow _).valid (.later hint.valid
      (.here (.noTarget (by decide))))))) tree rfl

end Invocation

end SchemaModels
