import SchemaModels.Proofs.Merge

/-! What a module does not show. Descriptions, uses of directives, arguments of fields, default values and
the interfaces of interfaces are read but never written, and neither are schema roots, directive
definitions and extensions without a base. A document and its erasure, which lacks them all, have the
same module. -/

namespace SchemaModels
set_option autoImplicit false

/-! ## Erasure -/

def InputValue.erase (v : InputValue) : InputValue :=
  { name := v.name, type := v.type }

def Field.erase (f : Field) : Field :=
  { name := f.name, type := f.type }

def EnumValue.erase (v : EnumValue) : EnumValue :=
  { name := v.name }

namespace Definition

/-- A definition without what no module shows of it, inside an extension alike. -/
def erase : Definition → Definition
  | schema _ => schema {}
  | scalar d => scalar { name := d.name }
  | object d => object { name := d.name, interfaces := d.interfaces, fields := d.fields.map Field.erase }
  | interface d => interface { name := d.name, fields := d.fields.map Field.erase }
  | union d => union { name := d.name, members := d.members }
  | enum d => enum { name := d.name, values := d.values.map EnumValue.erase }
  | input d => input { name := d.name, fields := d.fields.map InputValue.erase }
  | directive d => directive { name := d.name }
  | extension ext => extension ext.erase

/-- Whether a definition is of a kind that a module depends on. -/
def isShown : Definition → Bool
  | schema _ => false
  | directive _ => false
  | extension _ => false
  | _ => true

end Definition

namespace Document

/-- Erasure keeps definitions of the kinds that a module depends on, and their extensions where the base is
there. -/
def keeps (ds : List Definition) : Definition → Bool
  | .extension ext => ext.isShown && ds.any (·.accepts ext)
  | d => d.isShown

/-- A document without what its module does not show. -/
def erase (doc : Document) : Document :=
  ⟨(doc.definitions.filter (keeps doc.definitions)).map Definition.erase⟩

/-- The erased plain definitions: what the module of a document without extensions is made of. -/
def shown (ds : List Definition) : List Definition :=
  (ds.filter Definition.isShown).map Definition.erase

end Document

/-! ## Modules from erased definitions -/

theorem Declaration.ofDefinition?_erase (table : ScalarTable) (style : EnumStyle) (d : Definition) :
    ofDefinition? table style d.erase = ofDefinition? table style d := by
  cases d <;> simp [Definition.erase, ofDefinition?, ofObject, ofInterface, ofInput, ofEnum, ofUnion,
    Field.erase, InputValue.erase, EnumValue.erase, Function.comp_def]

namespace Document

theorem filterMap_shown {α : Type} {f : Definition → Option α} (herase : ∀ d : Definition, f d.erase = f d)
    (hhidden : ∀ d : Definition, d.isShown = false → f d = none) (ds : List Definition) :
    (shown ds).filterMap f = ds.filterMap f := by
  rw [shown, List.filterMap_map, List.filterMap_filter]
  congr 1
  funext d
  cases hd : d.isShown with
  | true => exact herase d
  | false => exact (hhidden d hd).symm

theorem scalarNames_shown (doc : Document) : scalarNames ⟨shown doc.definitions⟩ = doc.scalarNames := by
  apply filterMap_shown
  · intro d
    cases d <;> rfl
  · intro d hd
    cases d with
    | schema _ => rfl
    | directive _ => rfl
    | extension _ => rfl
    | _ => cases hd

theorem plainModule_shown (doc : Document) (settings : Settings) :
    plainModule ⟨shown doc.definitions⟩ settings = doc.plainModule settings := by
  have hdeclarations : declarations ⟨shown doc.definitions⟩ settings = doc.declarations settings := by
    simp only [declarations, ScalarTable.ofDocument, scalarNames_shown]
    apply filterMap_shown (Declaration.ofDefinition?_erase _ _)
    intro d hd
    cases d with
    | schema _ => rfl
    | directive _ => rfl
    | extension _ => rfl
    | _ => cases hd
  simp only [plainModule, hdeclarations]

end Document

/-! ## Erasure and merging -/

namespace Definition

theorem erase_erase (d : Definition) : d.erase.erase = d.erase := by
  induction d with
  | extension ext ih => simp only [erase, ih]
  | _ => simp [erase, Field.erase, InputValue.erase, EnumValue.erase, Function.comp_def]

theorem target?_erase (d : Definition) : d.erase.target? = d.target? := by
  cases d <;> rfl

theorem isShown_extend (base ext : Definition) : (base.extend ext).isShown = base.isShown := by
  cases base <;> cases ext <;> rfl

theorem erase_extend (base ext : Definition) : (base.extend ext).erase = base.erase.extend ext.erase := by
  cases base <;> cases ext <;> simp [extend, erase, FieldsType.extend, addNew]

theorem accepts_erase (base ext : Definition) : base.erase.accepts ext.erase = base.accepts ext := by
  simp only [accepts, target?_erase]

/-- A definition that accepts something is of its kind. -/
theorem isShown_of_accepts {base ext : Definition} (h : base.accepts ext) : base.isShown = ext.isShown := by
  cases base <;> cases ext <;> simp_all [accepts, target?, isShown]

end Definition

namespace Document

/-- Extensions that no definition accepts may be left out. -/
theorem foldl_absorb_filter {p : Definition → Bool} {exts ds : List Definition}
    (h : ∀ ext ∈ exts, p ext = false → ds.any (·.accepts ext) = false) :
    (exts.filter p).foldl (fun ds ext => absorb ext ds) ds = exts.foldl (fun ds ext => absorb ext ds) ds := by
  induction exts generalizing ds with
  | nil => rfl
  | cons ext exts ih =>
    obtain ⟨hext, hexts⟩ := List.forall_mem_cons.mp h
    cases hp : p ext with
    | true =>
      rw [List.filter_cons_of_pos hp, List.foldl_cons, List.foldl_cons]
      apply ih
      intro other hother hpother
      rw [any_accepts_absorb]
      exact hexts other hother hpother
    | false =>
      rw [List.filter_cons_of_neg (by simp [hp]), List.foldl_cons, absorb_of_unaccepted (hext hp)]
      exact ih hexts

theorem any_accepts_shown (ext : Definition) (ds : List Definition) :
    (shown ds).any (·.accepts ext.erase) = (ext.isShown && ds.any (·.accepts ext)) := by
  induction ds with
  | nil => simp [shown]
  | cons d ds ih =>
    simp only [shown] at ih ⊢
    by_cases hacc : d.accepts ext
    · have hkind := Definition.isShown_of_accepts hacc
      cases hshown : ext.isShown with
      | true => simp [hkind, hshown, hacc, Definition.accepts_erase]
      | false => simpa [hkind, hshown] using ih
    · by_cases hshown : d.isShown <;> simp [hshown, hacc, Definition.accepts_erase, ih]

theorem shown_absorb (ext : Definition) (ds : List Definition) :
    shown (absorb ext ds) = absorb ext.erase (shown ds) := by
  induction ds with
  | nil => rfl
  | cons d ds ih =>
    by_cases hshown : d.isShown
    · by_cases hacc : d.accepts ext
      · simp [shown, absorb, hacc, hshown, Definition.isShown_extend, Definition.accepts_erase,
          Definition.erase_extend]
      · simpa [shown, absorb, hacc, hshown, Definition.accepts_erase] using ih
    · by_cases hacc : d.accepts ext
      · -- what a hidden definition takes in is of a hidden kind, so no shown one would have taken it
        have hkind : ext.isShown = false := by simpa [hshown] using Definition.isShown_of_accepts hacc
        have hnone : (shown (d :: ds)).any (·.accepts ext.erase) = false := by
          rw [any_accepts_shown, hkind, Bool.false_and]
        rw [absorb_of_unaccepted hnone]
        simp [shown, absorb, hacc, hshown, Definition.isShown_extend]
      · simpa [shown, absorb, hacc, hshown] using ih

theorem shown_foldl_absorb (exts ds : List Definition) :
    shown (exts.foldl (fun ds ext => absorb ext ds) ds) =
      (exts.map Definition.erase).foldl (fun ds ext => absorb ext ds) (shown ds) := by
  induction exts generalizing ds with
  | nil => rfl
  | cons ext exts ih => rw [List.foldl_cons, ih, shown_absorb, List.map_cons, List.foldl_cons]

/-- Of a merged document, that is shown which its shown definitions make of the erased extensions. -/
theorem shown_merge (doc : Document) :
    shown doc.merge.definitions =
      ((extensions doc.definitions).map Definition.erase).foldl (fun ds ext => absorb ext ds)
        (shown doc.definitions) := by
  have hfilter : ∀ ds : List Definition,
      shown (ds.filter fun d => !isMatched doc.definitions d) = shown ds := by
    intro ds
    rw [shown, List.filter_filter, shown]
    congr 1
    apply List.filter_congr
    intro d _
    cases d <;> simp [isMatched, Definition.isShown]
  rw [merge_eq, hfilter, foldl_absorbExtension, shown_foldl_absorb]

theorem shown_erase (doc : Document) : shown doc.erase.definitions = shown doc.definitions := by
  simp only [shown, erase, List.filter_map, List.map_map, List.filter_filter]
  have hsame : (fun d : Definition => (Definition.isShown ∘ Definition.erase) d && keeps doc.definitions d) =
      Definition.isShown := by
    funext d
    cases d <;> rfl
  rw [hsame]
  apply List.map_congr_left
  intro d _
  exact d.erase_erase

/-- Erasure keeps the extensions that a shown definition accepts. -/
theorem extensions_erase (doc : Document) :
    extensions doc.erase.definitions =
      ((extensions doc.definitions).map Definition.erase).filter fun ext =>
        (shown doc.definitions).any (·.accepts ext) := by
  rw [List.filter_map]
  simp only [Function.comp_def, any_accepts_shown, extensions, erase, List.filterMap_map,
    List.filterMap_filter, List.filter_filterMap, List.map_filterMap]
  congr 1
  funext d
  cases d with
  | extension ext =>
    simp only [keeps, Definition.erase, Definition.extended?, Option.filter_some]
    split <;> simp_all
  | _ => simp [keeps, Definition.isShown, Definition.erase, Definition.extended?]

theorem shown_merge_erase (doc : Document) : shown doc.erase.merge.definitions = shown doc.merge.definitions := by
  have hidem : (extensions doc.erase.definitions).map Definition.erase = extensions doc.erase.definitions := by
    simp only [extensions_erase, List.filter_map, List.map_map]
    exact List.map_congr_left fun ext _ => ext.erase_erase
  rw [shown_merge, hidem, extensions_erase, shown_erase, shown_merge]
  apply foldl_absorb_filter
  intro ext _ hext
  exact hext

/-- A document has the module of its erasure, so documents that differ only in what is erased have the same
module. -/
theorem pythonModule_erase (settings : Settings) :
    (∀ doc : Document, doc.pythonModule settings = doc.erase.pythonModule settings) ∧
      ∀ one other : Document, one.erase = other.erase → one.pythonModule settings = other.pythonModule settings := by
  have herase : ∀ doc : Document, doc.pythonModule settings = doc.erase.pythonModule settings := by
    intro doc
    rw [pythonModule_eq, pythonModule_eq, ← plainModule_shown doc.merge, ← plainModule_shown doc.erase.merge,
      shown_merge_erase]
  refine ⟨herase, fun one other h => ?_⟩
  rw [herase one, h, ← herase other]

/-- Descriptions, arguments, defaults and directives come and go, with a root and an extension of nothing. -/
theorem pythonModule_erase_described :
    let size : InputValue := { name := "size", type := .named "Int", default := some (.int "1") }
    let icon : Field := { name := "icon", description := some "d", arguments := [size], type := .named "ID" }
    let one : Document :=
      ⟨[.extension (.object { name := "App", interfaces := ["Node"], directives := [{ name := "key" }] }),
        .schema { operations := [("query", "App")] }, .object { name := "App", fields := [icon] },
        .interface { name := "Node", interfaces := ["Root"] }, .extension (.enum { name := "App" }),
        .input { name := "Box", fields := [size] }]⟩
    let other : Document :=
      ⟨[.extension (.object { name := "App", interfaces := ["Node"] }),
        .object { name := "App", fields := [{ name := "icon", type := .named "ID" }] }, .interface { name := "Node" },
        .input { name := "Box", fields := [{ name := "size", description := some "s", type := .named "Int" }] }]⟩
    one.erase = other.erase ∧ ∀ settings, one.pythonModule settings = other.pythonModule settings := by
  intro size icon one other
  have herase : one.erase = other.erase := rfl
  exact ⟨herase, fun settings => (pythonModule_erase settings).2 one other herase⟩

end Document

end SchemaModels
