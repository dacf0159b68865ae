import Mathlib.Data.List.Forall2
import SchemaModels.Proofs.Merge

/-! Splitting definitions into extensions. A definition can be cut into a base that keeps its name and
description and extensions that hold the later parts of its lists. However the extensions are spread
over the document, merging puts every list together again, so the whole document comes back. -/

namespace SchemaModels
set_option autoImplicit false

/-! ## Parts of definitions -/

/-- The lists that a definition of any kind holds; those that its kind lacks are empty. -/
structure Parts where
  interfaces : List String := []
  directives : List Directive := []
  fields : List Field := []
  members : List String := []
  values : List EnumValue := []
  inputs : List InputValue := []
  operations : List (String × String) := []

namespace Parts

instance : Append Parts where
  append a b :=
    { interfaces := a.interfaces ++ b.interfaces
      directives := a.directives ++ b.directives
      fields := a.fields ++ b.fields
      members := a.members ++ b.members
      values := a.values ++ b.values
      inputs := a.inputs ++ b.inputs
      operations := a.operations ++ b.operations }

theorem append_eq (a b : Parts) :
    a ++ b = ⟨a.interfaces ++ b.interfaces, a.directives ++ b.directives, a.fields ++ b.fields,
      a.members ++ b.members, a.values ++ b.values, a.inputs ++ b.inputs, a.operations ++ b.operations⟩ :=
  rfl

theorem append_assoc (a b c : Parts) : a ++ b ++ c = a ++ (b ++ c) := by
  simp [append_eq]

theorem append_empty (a : Parts) : a ++ ({} : Parts) = a := by
  simp [append_eq]

/-- Chunks one behind another. -/
def join (chunks : List Parts) : Parts :=
  chunks.foldr (· ++ ·) {}

end Parts

namespace Definition

def parts : Definition → Parts
  | schema d => { directives := d.directives, operations := d.operations }
  | scalar d => { directives := d.directives }
  | object d => { interfaces := d.interfaces, directives := d.directives, fields := d.fields }
  | interface d => { interfaces := d.interfaces, directives := d.directives, fields := d.fields }
  | union d => { directives := d.directives, members := d.members }
  | enum d => { directives := d.directives, values := d.values }
  | input d => { directives := d.directives, inputs := d.fields }
  | directive _ => {}
  | extension _ => {}

/-- Kind, name, description and parts are all there is to a definition that can be extended. -/
theorem eq_of_parts_eq {a b : Definition} (hsome : b.target?.isSome) (htarget : a.target? = b.target?)
    (hdescription : a.description? = b.description?) (hparts : a.parts = b.parts) : a = b := by
  cases a <;> cases b <;> simp_all [target?, description?, parts]
  case schema a b => cases a; cases b; simp_all
  case scalar a b => cases a; cases b; simp_all
  case object a b => cases a; cases b; simp_all
  case interface a b => cases a; cases b; simp_all
  case union a b => cases a; cases b; simp_all
  case enum a b => cases a; cases b; simp_all
  case input a b => cases a; cases b; simp_all

end Definition

/-! ## Cuts -/

/-- A definition is cut into a base and extensions of it. -/
inductive Definition.Cut : Definition → Definition → List Definition → Prop
  | whole {d : Definition} : Cut d d []
  | chunks {d base : Definition} {exts : List Definition} : d.target?.isSome →
    base.target? = d.target? → base.description? = d.description? → (∀ ext ∈ exts, ext.target? = d.target?) →
      base.parts ++ Parts.join (exts.map Definition.parts) = d.parts → Cut d base exts

namespace Document

/-- What the extensions of a definition hold, in the order of the document. -/
def extensionsOf (doc : Document) (d : Definition) : List Definition :=
  (extensions doc.definitions).filter d.accepts

/-- The plain definitions of `split` are bases of those of `whole` in the same order, and each extension
belongs to one of them, which it helps to cut. Where the extensions stand is left open. -/
structure SplitOf (split whole : Document) : Prop where
  bases : List.Forall₂ (fun d base => d.Cut base (split.extensionsOf d)) whole.definitions
    (split.definitions.filter fun d => !d.isExtension)
  owned : ∀ ext, .extension ext ∈ split.definitions → ∃ d ∈ whole.definitions, d.accepts ext

end Document

/-! ## Putting chunks together -/

theorem addNew_eq_append {names added : List String} (h : (names ++ added).Nodup) :
    addNew names added = names ++ added := by
  induction added generalizing names with
  | nil => simp [addNew]
  | cons name added ih =>
    have hnew : name ∉ names := fun hmem => (List.nodup_append.mp h).2.2 name hmem name List.mem_cons_self rfl
    have hrest : (names ++ [name] ++ added).Nodup := by simpa using h
    have hstep : addNew names (name :: added) = addNew (names ++ [name]) added := by
      simp [addNew, hnew]
    rw [hstep, ih hrest, List.append_assoc, List.singleton_append]

namespace Definition

theorem description?_extend (base ext : Definition) : (base.extend ext).description? = base.description? := by
  cases base <;> cases ext <;> rfl

theorem accepts_iff {base ext : Definition} :
    base.accepts ext = true ↔ base.target?.isSome ∧ base.target? = ext.target? := by
  simp [accepts]

theorem parts_extend {base ext : Definition} (haccepts : base.accepts ext)
    (hnodup : (base.parts ++ ext.parts).interfaces.Nodup) : (base.extend ext).parts = base.parts ++ ext.parts := by
  have hinterfaces : addNew base.parts.interfaces ext.parts.interfaces =
      base.parts.interfaces ++ ext.parts.interfaces := addNew_eq_append hnodup
  cases base <;> cases ext <;>
    simp_all [accepts, target?, extend, parts, FieldsType.extend, Parts.append_eq]

/-- A base that takes in all its chunks holds the lists of the whole. -/
theorem parts_foldl_extend {base : Definition} {exts : List Definition} (haccepts : ∀ ext ∈ exts, base.accepts ext)
    (hnodup : (base.parts ++ Parts.join (exts.map parts)).interfaces.Nodup) :
    (exts.foldl extend base).parts = base.parts ++ Parts.join (exts.map parts) := by
  induction exts generalizing base with
  | nil => exact (Parts.append_empty _).symm
  | cons ext exts ih =>
    obtain ⟨hext, hexts⟩ := List.forall_mem_cons.mp haccepts
    have hjoin : base.parts ++ Parts.join ((ext :: exts).map parts) =
        base.parts ++ ext.parts ++ Parts.join (exts.map parts) := (Parts.append_assoc _ _ _).symm
    rw [hjoin] at hnodup ⊢
    have hfirst := parts_extend hext (List.nodup_append.mp hnodup).1
    rw [List.foldl_cons, ← hfirst]
    apply ih
    · intro other hother
      rw [accepts_iff, target?_extend]
      exact accepts_iff.mp (hexts other hother)
    · rw [hfirst]
      exact hnodup

theorem foldl_extend_unchanged {α : Type} {f : Definition → α}
    (hf : ∀ base ext : Definition, f (base.extend ext) = f base) (base : Definition) (exts : List Definition) :
    f (exts.foldl extend base) = f base := by
  induction exts generalizing base with
  | nil => rfl
  | cons ext exts ih => rw [List.foldl_cons, ih, hf]

theorem Cut.foldl_extend {d base : Definition} {exts : List Definition} (h : d.Cut base exts)
    (hnodup : d.parts.interfaces.Nodup) : exts.foldl extend base = d := by
  cases h with
  | whole => rfl
  | chunks hsome htarget hdescription hexts hparts =>
    rw [← hparts] at hnodup
    refine eq_of_parts_eq hsome ?_ ?_ ?_
    · rw [foldl_extend_unchanged target?_extend, htarget]
    · rw [foldl_extend_unchanged description?_extend, hdescription]
    · rw [← hparts]
      apply parts_foldl_extend _ hnodup
      intro ext hext
      rw [accepts_iff, htarget]
      exact ⟨hsome, (hexts ext hext).symm⟩

theorem Cut.target? {d base : Definition} {exts : List Definition} (h : d.Cut base exts) :
    base.target? = d.target? := by
  cases h with
  | whole => rfl
  | chunks _ htarget => exact htarget

theorem accepts_eq_of_target? {a b : Definition} (h : a.target? = b.target?) : a.accepts = b.accepts := by
  funext ext
  simp [accepts, h]

end Definition

/-! ## Merging a split document -/

namespace Document

/-- Where no two definitions are extended alike, each takes in all the extensions that it accepts. -/
theorem foldl_absorb_distinct {ds : List Definition} (h : (ds.filterMap Definition.target?).Nodup)
    (exts : List Definition) :
    exts.foldl (fun ds ext => absorb ext ds) ds =
      ds.map fun d => (exts.filter d.accepts).foldl Definition.extend d := by
  induction ds generalizing exts with
  | nil =>
    induction exts with
    | nil => rfl
    | cons ext exts ih => exact ih
  | cons d ds ih =>
    have htail : (ds.filterMap Definition.target?).Nodup :=
      h.sublist ((List.sublist_cons_self d ds).filterMap _)
    rw [foldl_absorb_cons, ih htail, List.map_cons]
    congr 1
    apply List.map_congr_left
    intro b hb
    -- an extension that `b` accepts is not taken away by `d` before
    have hleft : ∀ ext ∈ exts, (b.accepts ext && !d.accepts ext) = b.accepts ext := by
      intro ext _
      by_cases hacc : b.accepts ext
      · obtain ⟨hsome, hext⟩ := Definition.accepts_iff.mp hacc
        obtain ⟨target, htarget⟩ := Option.isSome_iff_exists.mp hsome
        have hmem : target ∈ ds.filterMap Definition.target? := List.mem_filterMap.mpr ⟨b, hb, htarget⟩
        have hnot : ¬ d.accepts ext := by
          intro hd
          have hsame : d.target? = some target := (Definition.accepts_iff.mp hd).2.trans (hext.symm.trans htarget)
          rw [List.filterMap_cons_some hsame] at h
          exact (List.nodup_cons.mp h).1 hmem
        simp [hacc, hnot]
      · simp [hacc]
    rw [List.filter_filter, List.filter_congr hleft]

theorem extensionsOf_extension (doc : Document) (ext : Definition) : doc.extensionsOf (.extension ext) = [] :=
  List.filter_eq_nil_iff.mpr fun _ _ => Bool.false_ne_true

/-- Where no two definitions are extended alike and every extension is matched, merging leaves the plain
definitions with what they take in. -/
theorem merge_distinct {doc : Document} (h : (doc.definitions.filterMap Definition.target?).Nodup)
    (hmatched : ∀ d ∈ doc.definitions, isMatched doc.definitions d = d.isExtension) :
    doc.merge.definitions = (doc.definitions.filter fun d => !d.isExtension).map fun d =>
      (doc.extensionsOf d).foldl Definition.extend d := by
  have hkept : ∀ d ∈ doc.definitions,
      isMatched doc.definitions ((doc.extensionsOf d).foldl Definition.extend d) = d.isExtension := by
    intro d hd
    cases hext : d.isExtension with
    | true =>
      cases d with
      | extension ext => rw [extensionsOf_extension, List.foldl_nil, hmatched _ hd, hext]
      | _ => cases hext
    | false =>
      apply isMatched_of_plain
      rw [Definition.foldl_extend_unchanged Definition.isExtension_extend, hext]
  simp only [merge_eq, foldl_absorbExtension, foldl_absorb_distinct h, List.filter_map]
  congr 1
  apply List.filter_congr
  intro d hd
  simp only [Function.comp_apply]
  exact congrArg (!·) (hkept d hd)

namespace SplitOf

variable {split whole : Document}

theorem targets_eq (h : split.SplitOf whole) :
    split.definitions.filterMap Definition.target? = whole.definitions.filterMap Definition.target? := by
  have hcuts : ∀ {ds bases : List Definition},
      List.Forall₂ (fun d base => d.Cut base (split.extensionsOf d)) ds bases →
        bases.filterMap Definition.target? = ds.filterMap Definition.target? := by
    intro ds bases hall
    induction hall with
    | nil => rfl
    | cons hcut _ ih => simp only [List.filterMap_cons, hcut.target?, ih]
  rw [← hcuts h.bases, List.filterMap_filter]
  congr 1
  funext d
  cases d <;> rfl

/-- Every extension finds its base. -/
theorem isMatched_eq (h : split.SplitOf whole) {d : Definition} (hd : d ∈ split.definitions) :
    isMatched split.definitions d = d.isExtension := by
  cases d with
  | extension ext =>
    obtain ⟨owner, howner, haccepts⟩ := h.owned ext hd
    obtain ⟨hsome, htarget⟩ := Definition.accepts_iff.mp haccepts
    obtain ⟨target, howns⟩ := Option.isSome_iff_exists.mp hsome
    have hmem : target ∈ split.definitions.filterMap Definition.target? := by
      rw [h.targets_eq]
      exact List.mem_filterMap.mpr ⟨owner, howner, howns⟩
    obtain ⟨base, hbase, hsame⟩ := List.mem_filterMap.mp hmem
    have hbaseAccepts : base.accepts ext := by
      rw [Definition.accepts_iff, hsame]
      exact ⟨rfl, by rw [← howns, htarget]⟩
    exact List.any_eq_true.mpr ⟨base, hbase, hbaseAccepts⟩
  | _ => rfl

theorem restores (h : split.SplitOf whole) (hinterfaces : ∀ d ∈ whole.definitions, d.parts.interfaces.Nodup) :
    ((split.definitions.filter fun d => !d.isExtension).map fun base =>
      (split.extensionsOf base).foldl Definition.extend base) = whole.definitions := by
  have hcuts : ∀ {ds bases : List Definition}, (∀ d ∈ ds, d.parts.interfaces.Nodup) →
      List.Forall₂ (fun d base => d.Cut base (split.extensionsOf d)) ds bases →
        (bases.map fun base => (split.extensionsOf base).foldl Definition.extend base) = ds := by
    intro ds bases hds hall
    induction hall with
    | nil => rfl
    | @cons d base ds bases hcut _ ih =>
      obtain ⟨hd, hds⟩ := List.forall_mem_cons.mp hds
      have hsame : split.extensionsOf base = split.extensionsOf d := by
        rw [extensionsOf, Definition.accepts_eq_of_target? hcut.target?, extensionsOf]
      rw [List.map_cons, hsame, hcut.foldl_extend hd, ih hds]
  exact hcuts hinterfaces h.bases

end SplitOf

/-- Cutting definitions into extensions and merging restores the document, with no extension left over,
whatever the order in which bases and extensions stand, and so the module stays the same. -/
theorem merge_split {split whole : Document} (hplain : whole.hasExtensions = false)
    (hdistinct : (whole.definitions.filterMap Definition.target?).Nodup)
    (hinterfaces : ∀ d ∈ whole.definitions, d.parts.interfaces.Nodup) (h : split.SplitOf whole) :
    split.merge = whole ∧ split.unmatchedCount = 0 ∧ split.merge.extensionCount = 0 ∧
      ∀ settings, split.pythonModule settings = whole.pythonModule settings := by
  have hmerge : split.merge = whole := by
    have hdefinitions := merge_distinct (h.targets_eq ▸ hdistinct) fun _ => h.isMatched_eq
    rw [h.restores hinterfaces] at hdefinitions
    exact congrArg Document.mk hdefinitions
  have hcount : split.merge.extensionCount = 0 := by
    rw [hmerge, extensionCount, List.countP_eq_zero]
    simpa [hasExtensions] using hplain
  refine ⟨hmerge, ?_, hcount, fun settings => ?_⟩
  · rw [← extensionCount_merge, hcount]
  · rw [pythonModule_eq, hmerge, pythonModule_eq, merge_of_plain hplain]

/-- A type cut into three with chunks on both sides of its base, between those of the root. -/
theorem merge_split_interleaved :
    let name : Field := { name := "name", type := .named "ID" }
    let age : Field := { name := "age", type := .named "Int" }
    let dog : FieldsType :=
      { name := "Dog", description := some "d", interfaces := ["Pet", "Named"], directives := [{ name := "key" }],
        fields := [name, age] }
    let root : SchemaRoot := { operations := [("query", "Dog"), ("mutation", "Dog")] }
    let key : DirectiveType := { name := "key", locations := ["OBJECT"] }
    let whole : Document := ⟨[.object dog, .directive key, .schema root]⟩
    let split : Document :=
      ⟨[.extension (.object { name := "Dog", interfaces := ["Named"] }),
        .extension (.schema { operations := [("mutation", "Dog")] }),
        .object { name := "Dog", description := some "d", interfaces := ["Pet"], fields := [name] },
        .directive key, .schema { operations := [("query", "Dog")] },
        .extension (.object { name := "Dog", directives := [{ name := "key" }], fields := [age] })]⟩
    split.SplitOf whole ∧ split.merge = whole ∧ split.unmatchedCount = 0 ∧ split.merge.extensionCount = 0 ∧
      ∀ settings, split.pythonModule settings = whole.pythonModule settings := by
  intro name age dog root key whole split
  have hsplit : split.SplitOf whole := by
    refine ⟨.cons ?_ (.cons .whole (.cons ?_ .nil)), ?_⟩
    · exact .chunks rfl rfl rfl (List.forall_mem_cons.mpr ⟨rfl, List.forall_mem_singleton.mpr rfl⟩) rfl
    · exact .chunks rfl rfl rfl (List.forall_mem_singleton.mpr rfl) rfl
    · intro ext hext
      simp only [split, List.mem_cons, Definition.extension.injEq, reduceCtorEq, false_or, or_false,
        List.not_mem_nil] at hext
      rcases hext with rfl | rfl | rfl
      · exact ⟨.object dog, List.mem_cons_self, rfl⟩
      · exact ⟨.schema root, by simp [whole], rfl⟩
      · exact ⟨.object dog, List.mem_cons_self, rfl⟩
  have hinterfaces : ∀ d ∈ whole.definitions, d.parts.interfaces.Nodup := by
    simp [whole, Definition.parts, dog]
  exact ⟨hsplit, merge_split rfl (by decide) hinterfaces hsplit⟩

end Document

end SchemaModels
