import SchemaModels.Proofs.Registry
import SchemaModels.Proofs.Splitting

/-! What merging makes of every definition of a document, whatever definitions and extensions it holds.
An extension goes where some plain definition has its kind and name. The first of these takes in the
contents of all such extensions, in the order of the document; nothing else changes or moves. What is left
then has nowhere to go, so merging again changes nothing. -/

namespace SchemaModels
set_option autoImplicit false

/-! ## Contents behind contents -/

/-- Those of some names that are not among others, each once. -/
def newNames (names added : List String) : List String :=
  (added.filter fun name => !names.contains name).eraseDups

theorem newNames_snoc (names added : List String) (name : String) : newNames names (added ++ [name]) =
    if name ∈ names ++ newNames names added then newNames names added else newNames names added ++ [name] := by
  unfold newNames
  rw [List.filter_append]
  by_cases hname : name ∈ names
  · rw [List.filter_cons_of_neg (by simpa using hname), List.filter_nil, List.append_nil,
      if_pos (List.mem_append_left _ hname)]
  · rw [List.filter_cons_of_pos (by simpa using hname), List.filter_nil, eraseDups_snoc]
    simp only [List.mem_append, hname, false_or, List.mem_eraseDups]

theorem addNew_eq (names added : List String) : addNew names added = names ++ newNames names added := by
  induction added using List.reverseRecOn with
  | nil => exact (List.append_nil names).symm
  | append_singleton added name ih =>
    have hstep : addNew names (added ++ [name]) =
        if name ∈ addNew names added then addNew names added else addNew names added ++ [name] := by
      simp [addNew, List.foldl_append]
    rw [hstep, ih, newNames_snoc]
    split
    · rfl
    · rw [List.append_assoc]

theorem newNames_append (names first second : List String) :
    newNames names (first ++ second) = newNames names first ++ newNames (names ++ newNames names first) second := by
  have hsame : addNew names (first ++ second) = addNew (addNew names first) second := List.foldl_append
  rw [addNew_eq, addNew_eq (addNew names first), addNew_eq names first, List.append_assoc] at hsame
  exact List.append_cancel_left hsame

/-- An object or interface type with more contents behind its own, and interfaces that it lacks. -/
def FieldsType.withParts (d : FieldsType) (p : Parts) : FieldsType :=
  { d with
    interfaces := d.interfaces ++ newNames d.interfaces p.interfaces
    directives := d.directives ++ p.directives
    fields := d.fields ++ p.fields }

namespace Definition

/-- A definition with more contents behind its own, and interfaces that it lacks. -/
def withParts (d : Definition) (p : Parts) : Definition :=
  match d with
  | schema d => schema { d with directives := d.directives ++ p.directives, operations := d.operations ++ p.operations }
  | scalar d => scalar { d with directives := d.directives ++ p.directives }
  | object d => object (d.withParts p)
  | interface d => interface (d.withParts p)
  | union d => union { d with directives := d.directives ++ p.directives, members := d.members ++ p.members }
  | enum d => enum { d with directives := d.directives ++ p.directives, values := d.values ++ p.values }
  | input d => input { d with directives := d.directives ++ p.directives, fields := d.fields ++ p.inputs }
  | directive d => directive d
  | extension d => extension d

theorem withParts_empty (d : Definition) : d.withParts {} = d := by
  cases d <;> simp [withParts, FieldsType.withParts, newNames]

/-- Contents of the same kind taken in before others stand before them. -/
theorem withParts_extend {d ext : Definition} (h : d.accepts ext) (p : Parts) :
    (d.extend ext).withParts p = d.withParts (ext.parts ++ p) := by
  cases d <;> cases ext <;>
    simp_all [accepts, target?, extend, withParts, parts, FieldsType.extend, FieldsType.withParts, Parts.append_eq,
      addNew_eq, newNames_append]

theorem isExtension_withParts (d : Definition) (p : Parts) : (d.withParts p).isExtension = d.isExtension := by
  cases d <;> rfl

/-- Taking in extensions one by one appends all their contents. -/
theorem foldl_extend_eq {d : Definition} {exts : List Definition} (h : ∀ ext ∈ exts, d.accepts ext) :
    exts.foldl extend d = d.withParts (Parts.join (exts.map parts)) := by
  induction exts generalizing d with
  | nil => exact d.withParts_empty.symm
  | cons ext exts ih =>
    obtain ⟨hext, hexts⟩ := List.forall_mem_cons.mp h
    have hsame : (d.extend ext).accepts = d.accepts := accepts_eq_of_target? (target?_extend d ext)
    rw [List.foldl_cons, ih (by rwa [hsame]), withParts_extend hext]
    rfl

end Definition

/-! ## Entries of a document -/

namespace Document

/-- Whether a definition is an extension of some plain definition of its kind and name. -/
def extendsPlain (doc : Document) : Definition → Bool
  | .extension ext => doc.definitions.any fun base =>
      !base.isExtension && (base.target?.isSome && base.target? == ext.target?)
  | _ => false

/-- Whether no definition before a place has the kind and name of the one there. -/
def isFirst (doc : Document) (entry : Definition × Nat) : Bool :=
  (doc.definitions.take entry.2).all fun earlier => earlier.target? != entry.1.target?

/-- What merging makes of a definition at its place: the first of its kind and name takes in the contents
of all extensions of it. -/
def mergedEntry (doc : Document) (entry : Definition × Nat) : Definition :=
  if doc.isFirst entry then entry.1.withParts (Parts.join ((doc.extensionsOf entry.1).map Definition.parts))
  else entry.1

theorem isMatched_eq_extendsPlain (doc : Document) (d : Definition) :
    isMatched doc.definitions d = doc.extendsPlain d := by
  cases d with
  | extension ext =>
    rw [isMatched, extendsPlain]
    congr 1
    funext base
    cases base <;> simp [Definition.accepts, Definition.isExtension, Definition.target?]
  | _ => rfl

theorem isExtension_mergedEntry (doc : Document) (entry : Definition × Nat) :
    (doc.mergedEntry entry).isExtension = entry.1.isExtension := by
  unfold mergedEntry
  split
  · exact Definition.isExtension_withParts _ _
  · rfl

theorem mergedEntry_extension (doc : Document) (ext : Definition) (place : Nat) :
    doc.mergedEntry (.extension ext, place) = .extension ext :=
  ite_self _

theorem extendsPlain_mergedEntry (doc : Document) (entry : Definition × Nat) :
    doc.extendsPlain (doc.mergedEntry entry) = doc.extendsPlain entry.1 := by
  obtain ⟨d, place⟩ := entry
  cases h : d.isExtension with
  | true =>
    cases d with
    | extension ext => rw [mergedEntry_extension]
    | _ => cases h
  | false =>
    have hmerged : (doc.mergedEntry (d, place)).isExtension = false := (isExtension_mergedEntry doc _).trans h
    rw [← isMatched_eq_extendsPlain, ← isMatched_eq_extendsPlain, isMatched_of_plain h, isMatched_of_plain hmerged]

/-- What is left of a definition's extensions behind others: all of them, unless one of the others has its
kind and name. -/
theorem filter_accepts_left (d : Definition) (before exts : List Definition) :
    (exts.filter fun ext => d.accepts ext && before.all fun b => !b.accepts ext) =
      if before.all fun earlier => earlier.target? != d.target? then exts.filter d.accepts else [] := by
  by_cases hfirst : before.all (fun earlier => earlier.target? != d.target?) = true
  · rw [if_pos hfirst]
    apply List.filter_congr
    intro ext _
    by_cases hext : d.accepts ext = true
    · rw [hext, Bool.true_and, List.all_eq_true]
      intro b hb
      have hapart : b.target? ≠ d.target? := bne_iff_ne.mp (List.all_eq_true.mp hfirst b hb)
      have hb : ¬ b.accepts ext := fun h =>
        hapart ((Definition.accepts_iff.mp h).2.trans (Definition.accepts_iff.mp hext).2.symm)
      rw [Bool.eq_false_iff.mpr hb, Bool.not_false]
    · rw [Bool.eq_false_iff.mpr hext, Bool.false_and]
  · rw [if_neg hfirst, List.filter_eq_nil_iff]
    intro ext _ hboth
    obtain ⟨hext, hbefore⟩ := Bool.and_eq_true_iff.mp hboth
    obtain ⟨b, hb, hsame⟩ := List.all_eq_false.mp (Bool.eq_false_iff.mpr hfirst)
    have hnot := List.all_eq_true.mp hbefore b hb
    rw [Definition.accepts_eq_of_target? (by simpa using hsame), hext] at hnot
    cases hnot

/-- The extensions that no definition before a place takes in are taken in from there on, all those of a
definition by the first one of its kind and name. -/
theorem foldl_absorb_entries {doc : Document} (before ds : List Definition) (hsplit : doc.definitions = before ++ ds) :
    ((extensions doc.definitions).filter fun ext => before.all fun b => !b.accepts ext).foldl
        (fun ds ext => absorb ext ds) ds = (ds.zipIdx before.length).map doc.mergedEntry := by
  -- the definitions are passed from the front, and `before` holds those that were
  induction ds generalizing before with
  | nil =>
    rw [List.zipIdx_nil, List.map_nil]
    induction (extensions doc.definitions).filter fun ext => before.all fun b => !b.accepts ext with
    | nil => rfl
    | cons ext exts ih => exact ih
  | cons d ds ih =>
    have hleft : ∀ ext, (before ++ [d]).all (fun b => !b.accepts ext) =
        ((!d.accepts ext) && before.all fun b => !b.accepts ext) := by
      intro ext
      rw [List.all_append, Bool.and_comm]
      simp
    have hrest := ih (before ++ [d]) (by rw [hsplit, List.append_assoc]; rfl)
    simp only [hleft, List.length_append, List.length_singleton] at hrest
    rw [foldl_absorb_cons, List.filter_filter, List.filter_filter, hrest, List.zipIdx_cons, List.map_cons]
    congr 1
    -- what lies before the place of this definition is what the fold has passed
    have htake : doc.definitions.take before.length = before := by rw [hsplit, List.take_left]
    rw [filter_accepts_left, mergedEntry, isFirst, htake]
    split
    · exact Definition.foldl_extend_eq fun ext hext => (List.mem_filter.mp hext).2
    · rfl

theorem definitions_merge (doc : Document) : doc.merge.definitions =
    (doc.definitions.zipIdx.filter fun entry => !doc.extendsPlain entry.1).map doc.mergedEntry := by
  have habsorb : doc.definitions.foldl absorbExtension doc.definitions = doc.definitions.zipIdx.map doc.mergedEntry := by
    have hentries := foldl_absorb_entries [] doc.definitions (List.nil_append _).symm
    rw [foldl_absorbExtension]
    simpa using hentries
  have hkeep : (fun d => !isMatched doc.definitions d) ∘ doc.mergedEntry = fun entry => !doc.extendsPlain entry.1 := by
    funext entry
    rw [Function.comp_apply, isMatched_eq_extendsPlain, extendsPlain_mergedEntry]
  simp only [merge_eq, habsorb, List.filter_map, hkeep]

/-- Merging takes away the extensions of plain definitions and gives their contents to the first
definition of their kind and name. All else stays as it is, in place, and the extensions that remain, which
are counted, are those that have no plain definition. -/
theorem merge_entries (doc : Document) :
    doc.merge.definitions =
        (doc.definitions.zipIdx.filter fun entry => !doc.extendsPlain entry.1).map doc.mergedEntry ∧
      doc.unmatchedCount = doc.merge.extensionCount ∧
      doc.merge.extensionCount = doc.definitions.countP fun d => d.isExtension && !doc.extendsPlain d := by
  refine ⟨doc.definitions_merge, doc.extensionCount_merge.symm, ?_⟩
  rw [extensionCount, definitions_merge, List.countP_map, List.countP_filter,
    ← countP_entries doc.definitions fun d => d.isExtension && !doc.extendsPlain d]
  congr 1
  funext entry
  rw [Function.comp_apply, isExtension_mergedEntry]

/-! ## Merging again -/

theorem any_accepts_eq (ext : Definition) (ds : List Definition) :
    ds.any (·.accepts ext) = (ds.filterMap Definition.target?).any fun target => some target == ext.target? := by
  rw [List.any_filterMap]
  congr 1
  funext d
  cases htarget : d.target? <;> simp [Definition.accepts, htarget]

theorem isMatched_merge (doc : Document) (d : Definition) :
    isMatched doc.merge.definitions d = isMatched doc.definitions d := by
  -- contents come and go, kinds and names stay
  have htargets := filterMap_merge Definition.target?_extend (fun _ => rfl) doc
  cases d with
  | extension ext => rw [isMatched, isMatched, any_accepts_eq, htargets, any_accepts_eq]
  | _ => rfl

theorem isMatched_of_mem_merge {doc : Document} {d : Definition} (hd : d ∈ doc.merge.definitions) :
    isMatched doc.merge.definitions d = false := by
  have hkept : (!isMatched doc.definitions d) = true := by
    rw [merge_eq] at hd
    exact (List.mem_filter.mp hd).2
  rwa [Bool.not_eq_true', ← isMatched_merge] at hkept

theorem unmatchedCount_merge (doc : Document) : doc.merge.unmatchedCount = doc.merge.extensionCount := by
  rw [unmatchedCount_eq, extensionCount]
  apply List.countP_congr
  intro d hd
  rw [isUnmatched, isMatched_of_mem_merge hd, Bool.not_false, Bool.and_true]

/-- A merged document has nothing more to merge, so a second merge changes nothing and counts what the first
one did. A document without extensions is merged as it stands. The module is that of the merged document in
any case. -/
theorem merge_merge (doc : Document) :
    doc.merge.merge = doc.merge ∧ doc.merge.unmatchedCount = doc.unmatchedCount ∧
      doc.merge.extensionCount = doc.unmatchedCount ∧
      (doc.hasExtensions = false → doc.merge = doc ∧ doc.unmatchedCount = 0) ∧
      ∀ settings, doc.pythonModule settings = doc.merge.pythonModule settings ∧
        doc.pythonModule settings = doc.merge.plainModule settings := by
  have hagain : doc.merge.merge = doc.merge := merge_of_unmatched fun _ hd => isMatched_of_mem_merge hd
  refine ⟨hagain, ?_, doc.extensionCount_merge, fun hplain => ⟨merge_of_plain hplain, ?_⟩, fun settings => ⟨?_, ?_⟩⟩
  · rw [unmatchedCount_merge, extensionCount_merge]
  · rw [← extensionCount_merge, merge_of_plain hplain, extensionCount, List.countP_eq_zero]
    simpa [hasExtensions] using hplain
  · rw [pythonModule_eq, pythonModule_eq, hagain]
  · exact doc.pythonModule_eq settings

/-- A definition that stands twice, an extension of another kind and an extension of an extension. -/
theorem merge_merge_leftovers :
    let base : UnionType := { name := "A", members := ["B"] }
    let left : List Definition := [.extension (.enum { name := "A" }), .extension (.extension (.union base))]
    let doc : Document := ⟨.extension (.union base) :: .union base :: .union base :: left⟩
    let plain : Document := ⟨[.union base]⟩
    doc.merge.merge = doc.merge ∧ doc.merge.unmatchedCount = doc.unmatchedCount ∧ doc.unmatchedCount = 2 ∧
      doc.merge.definitions = .union { base with members := ["B", "B"] } :: .union base :: left ∧
      plain.hasExtensions = false ∧ plain.merge = plain ∧ plain.unmatchedCount = 0 := by
  intro base left doc plain
  obtain ⟨hagain, hcount, -⟩ := merge_merge doc
  obtain ⟨-, -, -, hplain, -⟩ := merge_merge plain
  exact ⟨hagain, hcount, rfl, by rw [merge_eq]; rfl, rfl, hplain rfl⟩

end Document

end SchemaModels
