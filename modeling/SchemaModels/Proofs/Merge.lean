import Mathlib.Data.List.Nodup
import SchemaModels.Model.Module
import SchemaModels.Proofs.WellFormed

/-! Folding in extensions. Merging takes the extensions out, adds the contents of each to its definition and
puts those that have none back to their places; `merge_eq` says that this is one pass over the whole
document that leaves out the extensions with a definition. What an extension adds to a definition changes
neither its kind nor its name and keeps it well formed, so a merged document declares the same names in the
same order and is as well formed as the document itself. -/

namespace SchemaModels
set_option autoImplicit false

/-! ## One extension -/

namespace Definition

/-- The name under which a definition is declared in a module, if it is. -/
def declaredName? : Definition → Option String
  | object d => some d.name
  | interface d => some d.name
  | input d => some d.name
  | enum d => some d.name
  | union d => some d.name
  | _ => none

theorem declaredName?_extend (base ext : Definition) : (base.extend ext).declaredName? = base.declaredName? := by
  cases base <;> cases ext <;> rfl

/-- What an extension wraps. -/
def extended? : Definition → Option Definition
  | extension ext => some ext
  | _ => none

theorem target?_extend (base ext : Definition) : (base.extend ext).target? = base.target? := by
  cases base <;> cases ext <;> rfl

theorem isExtension_extend (base ext : Definition) : (base.extend ext).isExtension = base.isExtension := by
  cases base <;> cases ext <;> rfl

theorem isExtension_of_accepts {base ext : Definition} (h : base.accepts ext) : base.isExtension = false := by
  cases base with
  | extension d => cases h
  | _ => rfl

end Definition

theorem mem_addNew {names added : List String} {name : String} (h : name ∈ addNew names added) :
    name ∈ names ∨ name ∈ added := by
  induction added generalizing names with
  | nil => exact Or.inl h
  | cons first added ih =>
    rcases ih h with hnames | hadded
    · dsimp only at hnames
      split at hnames
      · exact Or.inl hnames
      · rcases List.mem_append.mp hnames with hnames | hfirst
        · exact Or.inl hnames
        · exact Or.inr (List.mem_singleton.mp hfirst ▸ List.mem_cons_self)
    · exact Or.inr (List.mem_cons_of_mem _ hadded)

theorem FieldsType.WellFormed.extend {room : Nat} {base ext : FieldsType} (hb : base.WellFormed room)
    (he : ext.WellFormed room) : (base.extend ext).WellFormed room :=
  ⟨hb.name, fun i hi => (mem_addNew hi).elim (hb.interfaces i) (he.interfaces i),
    List.forall_mem_append.mpr ⟨hb.directives, he.directives⟩, List.forall_mem_append.mpr ⟨hb.fields, he.fields⟩⟩

theorem Definition.WellFormed.extend {room : Nat} {base ext : Definition} (hb : base.WellFormed room)
    (he : ext.WellFormed room) : (base.extend ext).WellFormed room := by
  cases base <;> cases ext
  case schema.schema =>
    exact ⟨List.forall_mem_append.mpr ⟨hb.directives, he.directives⟩,
      List.forall_mem_append.mpr ⟨hb.operations, he.operations⟩⟩
  case scalar.scalar => exact ⟨hb.name, List.forall_mem_append.mpr ⟨hb.directives, he.directives⟩⟩
  case object.object => exact FieldsType.WellFormed.extend hb he
  case interface.interface => exact FieldsType.WellFormed.extend hb he
  case union.union =>
    exact ⟨hb.name, List.forall_mem_append.mpr ⟨hb.directives, he.directives⟩,
      List.forall_mem_append.mpr ⟨hb.members, he.members⟩⟩
  case enum.enum =>
    exact ⟨hb.name, List.forall_mem_append.mpr ⟨hb.directives, he.directives⟩,
      List.forall_mem_append.mpr ⟨hb.values, he.values⟩⟩
  case input.input =>
    exact ⟨hb.name, List.forall_mem_append.mpr ⟨hb.directives, he.directives⟩,
      List.forall_mem_append.mpr ⟨hb.fields, he.fields⟩⟩
  all_goals exact hb

/-! ## All extensions -/

namespace Document

/-- Adds an extension's contents to the first definition that accepts them. -/
def absorb (ext : Definition) : List Definition → List Definition
  | [] => []
  | d :: ds => if d.accepts ext then d.extend ext :: ds else d :: absorb ext ds

/-- Adds a definition's contents if it is an extension. -/
def absorbExtension (ds : List Definition) : Definition → List Definition
  | .extension ext => absorb ext ds
  | _ => ds

/-- Whether a definition is an extension of one of `ds`. -/
def isMatched (ds : List Definition) : Definition → Bool
  | .extension ext => ds.any (·.accepts ext)
  | _ => false

/-- Whether a definition is an extension that has nowhere to go. -/
def isUnmatched (ds : List Definition) (d : Definition) : Bool :=
  d.isExtension && !isMatched ds d

/-- How many extensions a document holds. -/
def extensionCount (doc : Document) : Nat :=
  doc.definitions.countP Definition.isExtension

/-- What contents do not change, folding in an extension does not change. -/
theorem map_absorb {α : Type} {f : Definition → α} (hf : ∀ base ext : Definition, f (base.extend ext) = f base)
    (ext : Definition) (ds : List Definition) : (absorb ext ds).map f = ds.map f := by
  induction ds with
  | nil => rfl
  | cons d ds ih =>
    rw [absorb]
    split
    · rw [List.map_cons, List.map_cons, hf]
    · rw [List.map_cons, List.map_cons, ih]

theorem map_foldl_absorbExtension {α : Type} {f : Definition → α}
    (hf : ∀ base ext : Definition, f (base.extend ext) = f base) (exts ds : List Definition) :
    (exts.foldl absorbExtension ds).map f = ds.map f := by
  induction exts generalizing ds with
  | nil => rfl
  | cons ext exts ih =>
    rw [List.foldl_cons, ih]
    cases ext with
    | extension of => exact map_absorb hf of ds
    | _ => rfl

/-! ## The loop -/

theorem isMatched_of_plain {ds : List Definition} {d : Definition} (h : d.isExtension = false) :
    isMatched ds d = false := by
  cases d with
  | extension ext => cases h
  | _ => rfl

theorem absorb_of_unaccepted {ext : Definition} {ds : List Definition} (h : ds.any (·.accepts ext) = false) :
    absorb ext ds = ds := by
  induction ds with
  | nil => rfl
  | cons d ds ih =>
    obtain ⟨hd, hds⟩ := Bool.or_eq_false_iff.mp h
    simp [absorb, hd, ih hds]

theorem any_accepts_absorb (ext other : Definition) (ds : List Definition) :
    (absorb ext ds).any (·.accepts other) = ds.any (·.accepts other) := by
  have hmap := congrArg (List.any · fun target => target.isSome && target == other.target?)
    (map_absorb Definition.target?_extend ext ds)
  simpa only [List.any_map, Function.comp_def, Definition.accepts] using hmap

theorem isUnmatched_absorb (ext : Definition) (ds : List Definition) :
    isUnmatched (absorb ext ds) = isUnmatched ds := by
  funext d
  cases d with
  | extension other => simp only [isUnmatched, isMatched, any_accepts_absorb]
  | _ => rfl

theorem isUnmatched_absorbExtension (ds : List Definition) (d : Definition) :
    isUnmatched (absorbExtension ds d) = isUnmatched ds := by
  cases d with
  | extension ext => exact isUnmatched_absorb ext ds
  | _ => rfl

/-- The plain ones among some definitions, numbered from a place on. -/
def plainEntries (ds : List Definition) (place : Nat) : List (Definition × Nat) :=
  (ds.zipIdx place).filter fun entry => !entry.1.isExtension

theorem plainEntries_cons (d : Definition) (ds : List Definition) (place : Nat) : plainEntries (d :: ds) place =
    if d.isExtension then plainEntries ds (place + 1) else (d, place) :: plainEntries ds (place + 1) := by
  rw [plainEntries, List.zipIdx_cons, List.filter_cons]
  cases d.isExtension <;> rfl

/-- Only plain definitions take in something, so the others may be set apart before. -/
theorem absorb?_plainEntries (ext : Definition) (ds : List Definition) (place : Nat) :
    absorb? ext (plainEntries ds place) =
      if ds.any (·.accepts ext) then some (plainEntries (absorb ext ds) place) else none := by
  induction ds generalizing place with
  | nil => rfl
  | cons d ds ih =>
    rw [absorb, List.any_cons, plainEntries_cons]
    by_cases hacc : d.accepts ext
    · rw [Definition.isExtension_of_accepts hacc, if_neg Bool.false_ne_true, absorb?, if_pos hacc, if_pos hacc,
        if_pos (by simp [hacc]), plainEntries_cons, Definition.isExtension_extend,
        Definition.isExtension_of_accepts hacc, if_neg Bool.false_ne_true]
    · rw [if_neg hacc, Bool.eq_false_iff.mpr hacc, Bool.false_or, plainEntries_cons]
      cases d.isExtension with
      | true => exact ih (place + 1)
      | false =>
        rw [if_neg Bool.false_ne_true, if_neg Bool.false_ne_true, absorb?, if_neg hacc, ih]
        split <;> rfl

theorem Merging.step_eq (d : Definition) (place : Nat) (ds : List Definition) (left : List (Definition × Nat)) :
    Merging.step ⟨plainEntries ds 0, left⟩ (d, place) =
      ⟨plainEntries (absorbExtension ds d) 0, left ++ if isUnmatched ds d then [(d, place)] else []⟩ := by
  cases d with
  | extension ext =>
    have hstep := absorb?_plainEntries ext ds 0
    cases hany : ds.any (·.accepts ext) with
    | true =>
      rw [hany, if_pos rfl] at hstep
      simp [Merging.step, hstep, absorbExtension, isUnmatched, isMatched, hany]
    | false =>
      rw [hany, if_neg Bool.false_ne_true] at hstep
      simp [Merging.step, hstep, absorbExtension, isUnmatched, isMatched, hany, absorb_of_unaccepted hany,
        Definition.isExtension]
  | _ => exact congrArg (Merging.mk _) (List.append_nil left).symm

theorem Merging.foldl_step (entries : List (Definition × Nat)) (ds : List Definition) (left : List (Definition × Nat)) :
    entries.foldl Merging.step ⟨plainEntries ds 0, left⟩ =
      ⟨plainEntries ((entries.map Prod.fst).foldl absorbExtension ds) 0,
        left ++ entries.filter fun entry => isUnmatched ds entry.1⟩ := by
  -- what the entries before have given to their definitions is in `ds`
  induction entries generalizing ds left with
  | nil => rw [List.foldl_nil, List.filter_nil, List.append_nil, List.map_nil, List.foldl_nil]
  | cons entry entries ih =>
    rw [List.foldl_cons, step_eq, ih, isUnmatched_absorbExtension, List.map_cons, List.foldl_cons, List.append_assoc,
      List.filter_cons]
    split <;> rfl

/-- Extensions take in nothing and stay in place. -/
theorem filter_absorb {p : Definition → Bool} (hp : ∀ d, d.isExtension = false → p d = false) (ext : Definition)
    (ds : List Definition) (place : Nat) :
    ((absorb ext ds).zipIdx place).filter (fun entry => p entry.1) =
      (ds.zipIdx place).filter fun entry => p entry.1 := by
  induction ds generalizing place with
  | nil => rfl
  | cons d ds ih =>
    rw [absorb]
    split
    · next hacc =>
      have hplain := Definition.isExtension_of_accepts hacc
      rw [List.zipIdx_cons, List.zipIdx_cons, List.filter_cons_of_neg, List.filter_cons_of_neg]
      · rw [hp d hplain]
        exact Bool.false_ne_true
      · rw [hp _ ((Definition.isExtension_extend d ext).trans hplain)]
        exact Bool.false_ne_true
    · rw [List.zipIdx_cons, List.zipIdx_cons, List.filter_cons, List.filter_cons, ih]

theorem filter_foldl_absorbExtension {p : Definition → Bool} (hp : ∀ d, d.isExtension = false → p d = false)
    (exts ds : List Definition) :
    ((exts.foldl absorbExtension ds).zipIdx).filter (fun entry => p entry.1) =
      ds.zipIdx.filter fun entry => p entry.1 := by
  induction exts generalizing ds with
  | nil => rfl
  | cons ext exts ih =>
    rw [List.foldl_cons, ih]
    cases ext with
    | extension of => exact filter_absorb hp of ds 0
    | _ => rfl

theorem foldl_absorbExtension_filter (exts ds : List Definition) :
    (exts.filter Definition.isExtension).foldl absorbExtension ds = exts.foldl absorbExtension ds := by
  induction exts generalizing ds with
  | nil => rfl
  | cons ext exts ih => cases ext <;> exact ih _

/-- Entries of a numbered list, put in the order of their numbers, are a part of it. -/
theorem mergeSort_entries {α : Type} {entries : List (α × Nat)} {xs : List α} {p : α × Nat → Bool}
    (h : entries.Perm (xs.zipIdx.filter p)) : (entries.mergeSort fun a b => a.2 ≤ b.2) = xs.zipIdx.filter p := by
  have hplaces : (xs.zipIdx.filter p).Pairwise fun a b => a.2 < b.2 := by
    refine List.Pairwise.filter p (List.pairwise_map.mp ?_)
    rw [List.zipIdx_map_snd]
    exact List.pairwise_lt_range'
  have hsorted : (entries.mergeSort fun a b => a.2 ≤ b.2).Pairwise fun a b => decide (a.2 ≤ b.2) = true :=
    List.pairwise_mergeSort (fun a b c hab hbc => by simp at hab hbc ⊢; omega) (fun a b => by simp; omega) entries
  have hperm := (List.mergeSort_perm entries fun a b => a.2 ≤ b.2).trans h
  have hnodup : ((xs.zipIdx.filter p).map Prod.snd).Nodup :=
    (List.pairwise_map.mpr hplaces).imp Nat.ne_of_lt
  refine hperm.eq_of_pairwise (fun a b ha hb hab hba => ?_) (hsorted.imp of_decide_eq_true)
    (hplaces.imp Nat.le_of_lt)
  exact List.inj_on_of_nodup_map hnodup (hperm.subset ha) hb (Nat.le_antisymm hab hba)

theorem countP_entries (ds : List Definition) (p : Definition → Bool) :
    ds.zipIdx.countP (fun entry => p entry.1) = ds.countP p := by
  conv_rhs => rw [← List.zipIdx_map_fst 0 ds, List.countP_map]
  rfl

theorem map_fst_filter (ds : List Definition) (p : Definition → Bool) :
    (ds.zipIdx.filter fun entry => p entry.1).map Prod.fst = ds.filter p := by
  conv_rhs => rw [← List.zipIdx_map_fst 0 ds, List.filter_map]
  rfl

/-- The plain definitions and the extensions left over are all that stays. -/
theorem plainEntries_append_perm (ds absorbed : List Definition) :
    (plainEntries absorbed 0 ++ absorbed.zipIdx.filter fun entry => isUnmatched ds entry.1).Perm
      (absorbed.zipIdx.filter fun entry => !isMatched ds entry.1) := by
  have hplain : (absorbed.zipIdx.filter fun entry => !isMatched ds entry.1).filter (fun entry => !entry.1.isExtension) =
      plainEntries absorbed 0 := by
    rw [List.filter_filter, plainEntries]
    refine List.filter_congr fun entry _ => ?_
    cases h : entry.1.isExtension with
    | true => rfl
    | false => rw [isMatched_of_plain h, Bool.not_false, Bool.true_and]
  have hleft : (absorbed.zipIdx.filter fun entry => !isMatched ds entry.1).filter
      (fun entry => !!entry.1.isExtension) = absorbed.zipIdx.filter fun entry => isUnmatched ds entry.1 := by
    rw [List.filter_filter]
    refine List.filter_congr fun entry _ => ?_
    rw [Bool.not_not, isUnmatched]
  rw [← hplain, ← hleft]
  exact List.filter_append_perm _ _

/-- Merging is one pass over all definitions, without the extensions that then have gone somewhere. -/
theorem mergeExtensions_eq (doc : Document) :
    doc.mergeExtensions =
      (⟨(doc.definitions.foldl absorbExtension doc.definitions).filter fun d => !isMatched doc.definitions d⟩,
        doc.definitions.countP (isUnmatched doc.definitions)) := by
  generalize hds : doc.definitions = ds
  have hloop : (ds.zipIdx.filter fun entry => entry.1.isExtension).foldl Merging.step ⟨plainEntries ds 0, []⟩ =
      ⟨plainEntries (ds.foldl absorbExtension ds) 0, ds.zipIdx.filter fun entry => isUnmatched ds entry.1⟩ := by
    rw [Merging.foldl_step, map_fst_filter, foldl_absorbExtension_filter, List.nil_append, List.filter_filter]
    congr 1
    refine List.filter_congr fun entry _ => ?_
    rw [isUnmatched]
    cases entry.1.isExtension <;> simp
  -- extensions take in nothing, so those left over are the same before and after the pass
  have hperm := plainEntries_append_perm ds (ds.foldl absorbExtension ds)
  rw [filter_foldl_absorbExtension fun d h => by rw [isUnmatched, h, Bool.false_and]] at hperm
  have hpartition : ds.zipIdx.partition (fun entry => entry.1.isExtension) =
      (ds.zipIdx.filter fun entry => entry.1.isExtension, plainEntries ds 0) := List.partition_eq_filter_filter
  have hplaced := map_fst_filter (ds.foldl absorbExtension ds) fun d => !isMatched ds d
  simp only [mergeExtensions, hds, hpartition, hloop, mergeSort_entries hperm, hplaced, ← List.countP_eq_length_filter,
    countP_entries]

theorem merge_eq (doc : Document) :
    doc.merge =
      ⟨(doc.definitions.foldl absorbExtension doc.definitions).filter fun d => !isMatched doc.definitions d⟩ :=
  congrArg Prod.fst doc.mergeExtensions_eq

theorem unmatchedCount_eq (doc : Document) :
    doc.unmatchedCount = doc.definitions.countP (isUnmatched doc.definitions) :=
  congrArg Prod.snd doc.mergeExtensions_eq

/-- The extensions counted are those that remain. -/
theorem extensionCount_merge (doc : Document) : doc.merge.extensionCount = doc.unmatchedCount := by
  have hextend : ∀ base ext : Definition,
      isUnmatched doc.definitions (base.extend ext) = isUnmatched doc.definitions base := by
    intro base ext
    cases base <;> cases ext <;> rfl
  have hcount := congrArg (List.countP id) (map_foldl_absorbExtension hextend doc.definitions doc.definitions)
  rw [List.countP_map, List.countP_map] at hcount
  rw [extensionCount, merge_eq, List.countP_filter, unmatchedCount_eq]
  exact hcount

/-! ## What merging keeps -/

theorem absorb_wellFormed {room : Nat} {ext : Definition} (he : ext.WellFormed room) {ds : List Definition}
    (hds : ∀ d ∈ ds, d.WellFormed room) : ∀ d ∈ absorb ext ds, d.WellFormed room := by
  induction ds with
  | nil => exact hds
  | cons d ds ih =>
    obtain ⟨hd, hds⟩ := List.forall_mem_cons.mp hds
    rw [absorb]
    split
    · exact List.forall_mem_cons.mpr ⟨hd.extend he, hds⟩
    · exact List.forall_mem_cons.mpr ⟨hd, ih hds⟩

theorem foldl_absorbExtension_wellFormed {room : Nat} {exts ds : List Definition}
    (he : ∀ d ∈ exts, d.WellFormed room) (hds : ∀ d ∈ ds, d.WellFormed room) :
    ∀ d ∈ exts.foldl absorbExtension ds, d.WellFormed room := by
  induction exts generalizing ds with
  | nil => exact hds
  | cons ext exts ih =>
    obtain ⟨hext, hexts⟩ := List.forall_mem_cons.mp he
    refine ih hexts ?_
    cases ext with
    | extension of => exact absorb_wellFormed hext.1 hds
    | _ => exact hds

theorem merge_wellFormed {doc : Document} (h : doc.WellFormed) : doc.merge.WellFormed :=
  fun d hd => foldl_absorbExtension_wellFormed h h d (List.mem_filter.mp (merge_eq doc ▸ hd)).1

/-- The names that a document declares in a module, in order and with repetitions. -/
def declaredNames (doc : Document) : List String :=
  doc.definitions.filterMap Definition.declaredName?

/-- A merged document shows the same of its definitions as the document, where contents do not matter and
extensions show nothing. -/
theorem filterMap_merge {α : Type} {f : Definition → Option α}
    (hextend : ∀ base ext : Definition, f (base.extend ext) = f base) (hnone : ∀ ext, f (.extension ext) = none)
    (doc : Document) : doc.merge.definitions.filterMap f = doc.definitions.filterMap f := by
  have hkeep : ∀ d : Definition, (if (!isMatched doc.definitions d) = true then f d else none) = f d := by
    intro d
    cases d with
    | extension ext => rw [hnone, ite_self]
    | _ => rfl
  simp only [merge_eq, List.filterMap_filter, hkeep]
  have hmap := congrArg (List.filterMap id) (map_foldl_absorbExtension hextend doc.definitions doc.definitions)
  rwa [List.filterMap_map, List.filterMap_map] at hmap

theorem declaredNames_merge (doc : Document) : doc.merge.declaredNames = doc.declaredNames :=
  filterMap_merge Definition.declaredName?_extend (fun _ => rfl) doc

/-! ## Nothing to fold in -/

theorem foldl_absorbExtension_of_unmatched {exts ds : List Definition} (h : ∀ d ∈ exts, isMatched ds d = false) :
    exts.foldl absorbExtension ds = ds := by
  induction exts with
  | nil => rfl
  | cons ext exts ih =>
    obtain ⟨hext, hexts⟩ := List.forall_mem_cons.mp h
    have hstep : absorbExtension ds ext = ds := by
      cases ext with
      | extension of => exact absorb_of_unaccepted hext
      | _ => rfl
    rw [List.foldl_cons, hstep, ih hexts]

/-- Where no extension has a definition to go to, merging changes nothing. -/
theorem merge_of_unmatched {doc : Document} (h : ∀ d ∈ doc.definitions, isMatched doc.definitions d = false) :
    doc.merge = doc := by
  have hfilter : doc.definitions.filter (fun d => !isMatched doc.definitions d) = doc.definitions :=
    List.filter_eq_self.mpr fun d hd => by rw [h d hd, Bool.not_false]
  rw [merge_eq, foldl_absorbExtension_of_unmatched h, hfilter]

theorem merge_of_plain {doc : Document} (h : doc.hasExtensions = false) : doc.merge = doc := by
  have hplain : ∀ d ∈ doc.definitions, d.isExtension = false := by
    simpa [hasExtensions] using h
  exact merge_of_unmatched fun d hd => isMatched_of_plain (hplain d hd)

/-! ## What each definition takes in -/

/-- The contents of the extensions among some definitions, in order. -/
def extensions (ds : List Definition) : List Definition :=
  ds.filterMap Definition.extended?

theorem foldl_absorbExtension (exts ds : List Definition) :
    exts.foldl absorbExtension ds = (extensions exts).foldl (fun ds ext => absorb ext ds) ds := by
  induction exts generalizing ds with
  | nil => rfl
  | cons ext exts ih => cases ext <;> exact ih _

/-- The first of some definitions takes in what it accepts, the others what is left. -/
theorem foldl_absorb_cons (exts : List Definition) (d : Definition) (ds : List Definition) :
    exts.foldl (fun ds ext => absorb ext ds) (d :: ds) =
      (exts.filter d.accepts).foldl Definition.extend d ::
        (exts.filter fun ext => !d.accepts ext).foldl (fun ds ext => absorb ext ds) ds := by
  induction exts generalizing d ds with
  | nil => rfl
  | cons ext exts ih =>
    by_cases h : d.accepts ext
    · have hsame : (d.extend ext).accepts = d.accepts := by
        funext other
        simp [Definition.accepts, Definition.target?_extend]
      simp [absorb, h, ih, hsame]
    · simp [absorb, h, ih]

/-- The module of a document is that of the merged document, whether there is something to merge or not. -/
theorem pythonModule_eq (doc : Document) (settings : Settings) :
    doc.pythonModule settings = doc.merge.plainModule settings := by
  cases h : doc.hasExtensions with
  | true => rw [pythonModule, h, if_pos rfl]
  | false => rw [pythonModule, h, if_neg Bool.false_ne_true, merge_of_plain h]

end Document

end SchemaModels
