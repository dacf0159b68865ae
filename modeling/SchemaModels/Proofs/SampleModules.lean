import SchemaModels.Proofs.BaseClasses
import SchemaModels.Proofs.HintTexts
import SchemaModels.Proofs.Pieces
import SchemaModels.Proofs.RingOrder
import SchemaModels.Proofs.SampleTexts

/-! The modules of the sample schemas. Their interfaces refer to each other around a ring and to nothing else; of
the groups, the object types refer to the interfaces and the unions to the object types, and no reference leads
back. So for every size the interfaces stand together in the order of their numbers, and what is built on them
comes behind them. -/

namespace SchemaModels
set_option autoImplicit false

open Relation

/-! ## Names that no scalar bears -/

/-- No setting is about a name: no scalar and no target of one bears it. -/
def Settings.Leaves (settings : Settings) (name : String) : Prop :=
  settings.scalars.get? name = none ∧ ∀ target ∈ settings.scalars.values, target.identity ≠ name

instance (settings : Settings) (name : String) : Decidable (settings.Leaves name) :=
  inferInstanceAs (Decidable (_ ∧ _))

namespace ScalarTable

/-- A name stands for itself: it is no scalar, and no scalar becomes what it names. -/
structure Free (table : ScalarTable) (name : String) : Prop where
  unknown : table.get? name = none
  untargeted : table.isPrimitive name = false

theorem Free.meaning_eq {table : ScalarTable} {name : String} (h : table.Free name) : table.meaning name = name := by
  rw [meaning, h.unknown]

theorem isPrimitive_meaning {table : ScalarTable} {name : String} {target : ScalarTarget}
    (h : table.get? name = some target) : table.isPrimitive (table.meaning name) = true := by
  rw [meaning, h, isPrimitive, Bool.or_eq_true, List.any_eq_true]
  exact Or.inr ⟨target, table.mem_values_iff.mpr ⟨name, h⟩, beq_self_eq_true _⟩

theorem free_numbered {doc : Document} {settings : Settings} (hscalars : ∀ name ∈ doc.scalarNames, hasDigit name = false)
    {word : String} {number : Nat} (h : settings.Leaves (numbered word number)) :
    (doc.scalarTable settings).Free (numbered word number) := by
  have hnames : ∀ name ∈ builtin.names, hasDigit name = false := by decide
  have htargets : ∀ target ∈ builtin.values, hasDigit target.identity = false := by decide
  have hany : hasDigit ScalarTarget.any.identity = false := by decide
  constructor
  · have hbuiltin : builtin.get? (numbered word number) = none :=
      (Registry.get?_eq_none_iff _ _).mpr fun hmem => numbered_ne number (hnames _ hmem) rfl
    rw [Document.scalarTable, get?_ofDocument, h.1, hbuiltin,
      if_neg fun hmem => numbered_ne number (hscalars _ hmem) rfl]
    rfl
  · rw [isPrimitive, Bool.or_eq_false_iff]
    refine ⟨beq_eq_false_iff_ne.mpr (numbered_ne number hany), List.any_eq_false.mpr fun target htarget => ?_⟩
    rw [beq_iff_eq]
    obtain ⟨name, hget⟩ := (Registry.mem_values_iff _).mp htarget
    rcases target_ofDocument hget with hmem | rfl | hmem
    · exact h.2 target hmem
    · exact (numbered_ne number hany).symm
    · exact (numbered_ne number (htargets target hmem)).symm

end ScalarTable

/-! ## What the samples refer to -/

namespace Declaration

variable {table : ScalarTable} {x : String}

theorem identity_ofInterface (d : FieldsType) : (ofInterface table d).1.identity = d.name :=
  (make_fields _ _ _ _).1

theorem identity_ofObject (d : FieldsType) : (ofObject table d).1.identity = d.name :=
  (make_fields _ _ _ _).1

theorem identity_ofUnion (d : UnionType) : (ofUnion table d).1.identity = d.name :=
  (make_fields _ _ _ _).1

theorem mem_dependencies_ofInterface {d : FieldsType} : x ∈ (ofInterface table d).1.dependencies ↔
    table.isPrimitive x = false ∧ ∃ f ∈ d.fields, table.meaning f.type.baseName = x := by
  unfold ofInterface
  simp [mem_dependencies_make, Attribute.ofField, TypeHint.identity_ofType, and_comm]

theorem mem_dependencies_ofObject {d : FieldsType} : x ∈ (ofObject table d).1.dependencies ↔
    table.isPrimitive x = false ∧ x ∈ d.interfaces.map (baseName table) := by
  unfold ofObject
  simp [mem_dependencies_make, and_comm]

theorem mem_dependencies_ofUnion {d : UnionType} : x ∈ (ofUnion table d).1.dependencies ↔
    table.isPrimitive x = false ∧ ∃ member ∈ d.members, table.meaning member = x := by
  have hidentity : ∀ name, (TypeHint.named table name).identity = table.meaning name :=
    fun name => TypeHint.identity_ofType table (.named name)
  unfold ofUnion
  simp [mem_dependencies_make, hidentity, and_comm]

end Declaration

namespace Samples

variable {size : Nat} {table : ScalarTable} {style : EnumStyle}

/-! ## The ring -/

def ringDeclarations (table : ScalarTable) (size : Nat) : List Declaration :=
  (List.range size).map fun i => (Declaration.ofInterface table (ringInterface i (following size i))).1

theorem outline_ring (size : Nat) (settings : Settings) : (ringDocument size).outline settings =
    .ofList (ringDeclarations ((ringDocument size).scalarTable settings) size) := by
  rw [Document.outline, ringDocument, List.filterMap_map]
  exact congrArg Outline.ofList (congrFun List.filterMap_eq_map _)

theorem identities_ring (table : ScalarTable) (size : Nat) :
    (ringDeclarations table size).map Declaration.identity = (List.range size).map (numbered "Ring") := by
  rw [ringDeclarations, List.map_map]
  exact List.map_congr_left fun i _ => (Declaration.make_fields _ _ _ _).1

theorem nodup_numbered {word : String} (h : hasDigit word = false) (size : Nat) :
    ((List.range size).map (numbered word)).Nodup :=
  List.nodup_range.map fun _ _ he => ((numbered_inj h h).mp he).2

theorem ring_dependencies (i : Nat) {j : Nat} (h : table.Free (numbered "Ring" j)) {x : String} :
    x ∈ (Declaration.ofInterface table (ringInterface i j)).1.dependencies ↔ x = numbered "Ring" j := by
  rw [Declaration.mem_dependencies_ofInterface]
  simp only [ringInterface, List.mem_singleton, exists_eq_left, TypeExpr.baseName, h.meaning_eq]
  refine ⟨fun hx => hx.2.symm, ?_⟩
  rintro rfl
  exact ⟨h.untargeted, rfl⟩

theorem ring_closed (h : ∀ i < size, table.Free (numbered "Ring" i)) : Outline.Closed (ringDeclarations table size) := by
  constructor
  · rw [identities_ring]
    exact nodup_numbered (by decide) size
  · rw [identities_ring]
    intro d hd target htarget
    obtain ⟨i, hi, rfl⟩ := List.mem_map.mp hd
    rw [List.mem_range] at hi
    rw [(ring_dependencies i (h _ (following_lt hi))).mp htarget]
    exact List.mem_map_of_mem (List.mem_range.mpr (following_lt hi))

theorem ring_linked (h : ∀ i < size, table.Free (numbered "Ring" i)) {i : Nat} (hi : i < size) (target : String) :
    Graph.Linked (Outline.ofList (ringDeclarations table size)).calls (numbered "Ring" i) target ↔
      target = numbered "Ring" (following size i) := by
  have hdigit : hasDigit "Ring" = false := by decide
  have hfree := h _ (following_lt hi)
  rw [Outline.linked_calls (ring_closed h).nodup]
  constructor
  · rintro ⟨d, hd, hidentity, htarget⟩
    obtain ⟨k, -, rfl⟩ := List.mem_map.mp hd
    obtain ⟨-, rfl⟩ := (numbered_inj hdigit hdigit).mp ((Declaration.make_fields _ _ _ _).1.symm.trans hidentity)
    exact (ring_dependencies _ hfree).mp htarget
  · intro htarget
    exact ⟨_, List.mem_map_of_mem (List.mem_range.mpr hi), (Declaration.make_fields _ _ _ _).1,
      (ring_dependencies i hfree).mpr htarget⟩

theorem ring_plain (table : ScalarTable) (size : Nat) (source target : String) :
    Graph.Call.supertype source target ∉ (Outline.ofList (ringDeclarations table size)).calls := by
  intro hcall
  obtain ⟨d, hd, -, -, hsuper⟩ := Outline.mem_calls_supertype.mp hcall
  obtain ⟨i, -, rfl⟩ := List.mem_map.mp (Outline.mem_of_mem_ordered ((Outline.ordered_perm _).mem_iff.mpr hd))
  exact Declaration.supertypes_ofInterface _ _ _ hsuper

/-- The whole ring is one component, and there is nothing else. -/
theorem order_ring (h : ∀ i < size, table.Free (numbered "Ring" i)) :
    (Outline.ofList (ringDeclarations table size)).graph.order = (List.range size).map (numbered "Ring") := by
  have hrepresents := (Outline.ofList (ringDeclarations table size)).represents
  have hnames := (ring_closed h).names_graph.trans (identities_ring table size)
  obtain ⟨before, after, horder⟩ := hrepresents.exists_ring (numbered "Ring")
    (fun i hi => ring_linked h hi) (fun _ _ => ring_plain table size _) (hnames ▸ List.Sublist.refl _)
  have hlength := hrepresents.order_perm.length_eq
  rw [hnames, horder] at hlength
  simp only [List.length_append] at hlength
  rw [horder, List.eq_nil_of_length_eq_zero (l := before) (by omega),
    List.eq_nil_of_length_eq_zero (l := after) (by omega), List.append_nil, List.nil_append]

/-- The class of an interface on the ring. -/
def ringClass (i j : Nat) : String :=
  "class " ++ numbered "Ring" i ++ "(BaseModel):\n    next: '" ++ numbered "Ring" j ++ "'"

theorem text_ring (i : Nat) {j : Nat} (h : table.Free (numbered "Ring" j)) :
    (Declaration.ofInterface table (ringInterface i j)).1.text = ringClass i j := by
  have hhint : (TypeHint.ofType table (.nonNull (.named (numbered "Ring" j)))).text = "'" ++ numbered "Ring" j ++ "'" := by
    change TypeHint.stripOptional (TypeHint.named table (numbered "Ring" j)).text = _
    rw [TypeHint.text_named_of_none h.unknown, TypeHint.stripOptional_wrapped]
  have hline : Attribute.lineFor "next" ("'" ++ numbered "Ring" j ++ "'") =
      indent ++ "next" ++ ": " ++ ("'" ++ numbered "Ring" j ++ "'") :=
    if_neg (by decide)
  have hclass : ringClass i j = Declaration.classText (numbered "Ring" i) Declaration.baseModel
      [indent ++ "next" ++ ": " ++ ("'" ++ numbered "Ring" j ++ "'")] := by
    have hcut : "(BaseModel):\n    next: '" =
        "(" ++ Declaration.baseModel ++ "):\n" ++ (indent ++ "next" ++ ": " ++ "'") := rfl
    rw [ringClass, Declaration.classText, hcut]
    simp only [List.isEmpty_cons, Bool.false_eq_true, if_false, String.intercalate_singleton, String.append_assoc]
  rw [hclass, ← hline, ← hhint]
  exact (Declaration.make_fields _ _ _ _).2.1

theorem ordered_ring (h : ∀ i < size, table.Free (numbered "Ring" i)) :
    (Outline.ofList (ringDeclarations table size)).ordered = ringDeclarations table size := by
  rw [Outline.ordered, order_ring h, ← identities_ring table, List.filterMap_map]
  refine (List.filterMap_congr fun d hd => ?_).trans List.filterMap_some
  exact (ring_closed h).get?_of_mem hd

/-! ## The groups -/

/-- What a group declares, in order. -/
def groupWords : List String :=
  ["Node", "Item", "ItemFilter", "Status", "Result"]

def groupNames (size : Nat) : List String :=
  (List.range size).flatMap fun i => groupWords.map (numbered · i)

def groupDeclarations (table : ScalarTable) (style : EnumStyle) (i j : Nat) : List Declaration :=
  [(Declaration.ofInterface table (node i j)).1, (Declaration.ofObject table (item i j)).1,
    (Declaration.ofInput table (filter i j)).1, (Declaration.ofEnum style (status i)).1,
    (Declaration.ofUnion table (result i j)).1]

def groupsDeclarations (table : ScalarTable) (style : EnumStyle) (size : Nat) : List Declaration :=
  (List.range size).flatMap fun i => groupDeclarations table style i (following size i)

theorem outline_groups (size : Nat) (settings : Settings) : (groupsDocument size).outline settings =
    .ofList (groupsDeclarations ((groupsDocument size).scalarTable settings) settings.enumStyle size) := by
  rw [Document.outline, groupsDocument, List.filterMap_cons_none rfl, List.filterMap_cons_none rfl,
    List.filterMap_flatMap]
  rfl

theorem hasDigit_groupWords : ∀ word ∈ groupWords, hasDigit word = false := by decide

theorem identities_groups (table : ScalarTable) (style : EnumStyle) (size : Nat) :
    (groupsDeclarations table style size).map Declaration.identity = groupNames size := by
  rw [groupsDeclarations, List.map_flatMap]
  refine congrArg (List.flatMap · _) (funext fun i => ?_)
  simp only [groupDeclarations, Declaration.ofInterface, Declaration.ofObject, Declaration.ofInput, Declaration.ofEnum,
    Declaration.ofUnion, List.map_cons, List.map_nil, (Declaration.make_fields _ _ _ _).1]
  rfl

theorem nodup_groupNames (size : Nat) : (groupNames size).Nodup := by
  have hwords : groupWords.Nodup := by decide
  rw [groupNames, List.nodup_flatMap]
  refine ⟨fun i _ => hwords.map_on fun word hword other hother he => ?_, ?_⟩
  · exact ((numbered_inj (hasDigit_groupWords _ hword) (hasDigit_groupWords _ hother)).mp he).1
  · refine List.nodup_range.imp fun {i j} hne name hi hj => ?_
    obtain ⟨word, hword, rfl⟩ := List.mem_map.mp hi
    obtain ⟨other, hother, he⟩ := List.mem_map.mp hj
    exact hne ((numbered_inj (hasDigit_groupWords _ hother) (hasDigit_groupWords _ hword)).mp he).2.symm

theorem mem_groupNames {word : String} (h : word ∈ groupWords) {i : Nat} (hi : i < size) :
    numbered word i ∈ groupNames size :=
  List.mem_flatMap.mpr ⟨i, List.mem_range.mpr hi, List.mem_map_of_mem h⟩

/-- The references between the declarations of the groups. -/
inductive GroupLink (size : Nat) : String → String → Prop
  | parent {i : Nat} : i < size → GroupLink size (numbered "Node" i) (numbered "Node" (following size i))
  | base {i : Nat} : i < size → GroupLink size (numbered "Item" i) (numbered "Node" i)
  | first {i : Nat} : i < size → GroupLink size (numbered "Result" i) (numbered "Item" i)
  | second {i : Nat} : i < size → GroupLink size (numbered "Result" i) (numbered "Item" (following size i))

theorem node_dependencies {target : ScalarTarget} (hid : table.get? "ID" = some target) (i : Nat) {j : Nat}
    (h : table.Free (numbered "Node" j)) {x : String} :
    x ∈ (Declaration.ofInterface table (node i j)).1.dependencies ↔ x = numbered "Node" j := by
  rw [Declaration.mem_dependencies_ofInterface]
  simp only [node, nodeFields, List.mem_cons, List.not_mem_nil, or_false, exists_eq_or_imp, exists_eq_left,
    TypeExpr.baseName, h.meaning_eq]
  constructor
  · rintro ⟨hx, rfl | rfl⟩
    · -- identifiers are scalars, whatever they become
      exact absurd hx (by simp [ScalarTable.isPrimitive_meaning hid])
    · rfl
  · rintro rfl
    exact ⟨h.untargeted, Or.inr rfl⟩

theorem item_dependencies {i : Nat} (j : Nat) (h : table.Free (numbered "Node" i)) {x : String} :
    x ∈ (Declaration.ofObject table (item i j)).1.dependencies ↔ x = numbered "Node" i := by
  have hnode : ValidName "Node" := by decide
  rw [Declaration.mem_dependencies_ofObject]
  simp only [item, List.map_cons, List.map_nil, List.mem_singleton,
    Declaration.baseName_eq h.unknown (validName_numbered hnode i)]
  refine ⟨And.right, ?_⟩
  rintro rfl
  exact ⟨h.untargeted, rfl⟩

theorem result_dependencies {i j : Nat} (hi : table.Free (numbered "Item" i)) (hj : table.Free (numbered "Item" j))
    {x : String} : x ∈ (Declaration.ofUnion table (result i j)).1.dependencies ↔
      x = numbered "Item" i ∨ x = numbered "Item" j := by
  rw [Declaration.mem_dependencies_ofUnion]
  simp only [result, List.mem_cons, List.not_mem_nil, or_false, exists_eq_or_imp, exists_eq_left, hi.meaning_eq,
    hj.meaning_eq, eq_comm (b := x)]
  refine ⟨And.right, ?_⟩
  rintro (rfl | rfl)
  · exact ⟨hi.untargeted, Or.inl rfl⟩
  · exact ⟨hj.untargeted, Or.inr rfl⟩

/-- The table knows identifiers and takes the groups' nodes and items for what they are. -/
structure GroupTable (table : ScalarTable) (size : Nat) : Prop where
  identifiers : ∃ target, table.get? "ID" = some target
  nodes : ∀ i < size, table.Free (numbered "Node" i)
  items : ∀ i < size, table.Free (numbered "Item" i)

/-- What the declarations of one group refer to. -/
theorem group_links (h : GroupTable table size) {i : Nat} (hi : i < size) :
    ∀ d ∈ groupDeclarations table style i (following size i), ∀ target ∈ d.dependencies,
      GroupLink size d.identity target := by
  obtain ⟨_, hid⟩ := h.identifiers
  have hnext := following_lt hi
  simp only [groupDeclarations, List.forall_mem_cons]
  refine ⟨fun target htarget => ?_, fun target htarget => ?_, List.forall_mem_nil _, List.forall_mem_nil _,
    fun target htarget => ?_, List.forall_mem_nil _⟩
  · rw [(node_dependencies hid i (h.nodes _ hnext)).mp htarget, Declaration.identity_ofInterface]
    exact .parent hi
  · rw [(item_dependencies _ (h.nodes i hi)).mp htarget, Declaration.identity_ofObject]
    exact .base hi
  · rw [Declaration.identity_ofUnion]
    rcases (result_dependencies (h.items i hi) (h.items _ hnext)).mp htarget with rfl | rfl
    · exact .first hi
    · exact .second hi

theorem references_groups (h : GroupTable table size) {source target : String} :
    (∃ d ∈ groupsDeclarations table style size, d.identity = source ∧ target ∈ d.dependencies) ↔
      GroupLink size source target := by
  obtain ⟨_, hid⟩ := h.identifiers
  constructor
  · rintro ⟨d, hd, rfl, htarget⟩
    obtain ⟨i, hi, hd⟩ := List.mem_flatMap.mp hd
    exact group_links h (List.mem_range.mp hi) d hd target htarget
  · have hmem : ∀ i < size, ∀ d ∈ groupDeclarations table style i (following size i),
        d ∈ groupsDeclarations table style size := fun i hi d hd => List.mem_flatMap.mpr ⟨i, List.mem_range.mpr hi, hd⟩
    have hunion : ∀ i < size, (Declaration.ofUnion table (result i (following size i))).1 ∈
        groupsDeclarations table style size := fun i hi => hmem i hi _ (by simp [groupDeclarations])
    intro hlink
    cases hlink with
    | @parent i hi =>
      exact ⟨_, hmem i hi _ List.mem_cons_self, Declaration.identity_ofInterface _,
        (node_dependencies hid i (h.nodes _ (following_lt hi))).mpr rfl⟩
    | @base i hi =>
      exact ⟨_, hmem i hi _ (List.mem_cons_of_mem _ List.mem_cons_self), Declaration.identity_ofObject _,
        (item_dependencies _ (h.nodes i hi)).mpr rfl⟩
    | @first i hi =>
      exact ⟨_, hunion i hi, Declaration.identity_ofUnion _,
        (result_dependencies (h.items i hi) (h.items _ (following_lt hi))).mpr (Or.inl rfl)⟩
    | @second i hi =>
      exact ⟨_, hunion i hi, Declaration.identity_ofUnion _,
        (result_dependencies (h.items i hi) (h.items _ (following_lt hi))).mpr (Or.inr rfl)⟩

theorem GroupLink.declared {source target : String} (h : GroupLink size source target) : target ∈ groupNames size := by
  cases h with
  | parent hi => exact mem_groupNames (by decide) (following_lt hi)
  | base hi => exact mem_groupNames (by decide) hi
  | first hi => exact mem_groupNames (by decide) hi
  | second hi => exact mem_groupNames (by decide) (following_lt hi)

theorem groups_closed (h : GroupTable table size) : Outline.Closed (groupsDeclarations table style size) := by
  constructor
  · rw [identities_groups]
    exact nodup_groupNames size
  · intro d hd target htarget
    rw [identities_groups]
    exact ((references_groups h).mp ⟨d, hd, rfl, htarget⟩).declared

/-! Links lead from results to items, from items to nodes and from nodes to nodes, and never back. -/

theorem GroupLink.cases_word {word : String} (hword : hasDigit word = false) {i : Nat} {target : String}
    (h : GroupLink size (numbered word i) target) :
    (word = "Node" ∧ target = numbered "Node" (following size i)) ∨ (word = "Item" ∧ target = numbered "Node" i) ∨
      word = "Result" := by
  generalize hsource : numbered word i = source at h
  cases h with
  | parent _ =>
    obtain ⟨rfl, rfl⟩ := (numbered_inj hword (by decide)).mp hsource
    exact Or.inl ⟨rfl, rfl⟩
  | base _ =>
    obtain ⟨rfl, rfl⟩ := (numbered_inj hword (by decide)).mp hsource
    exact Or.inr (Or.inl ⟨rfl, rfl⟩)
  | first _ => exact Or.inr (Or.inr ((numbered_inj hword (by decide)).mp hsource).1)
  | second _ => exact Or.inr (Or.inr ((numbered_inj hword (by decide)).mp hsource).1)

theorem GroupLink.of_node {i : Nat} {target : String} (h : GroupLink size (numbered "Node" i) target) :
    target = numbered "Node" (following size i) := by
  rcases h.cases_word (by decide) with ⟨-, htarget⟩ | ⟨hword, -⟩ | hword
  · exact htarget
  · exact absurd hword (by decide)
  · exact absurd hword (by decide)

theorem GroupLink.of_item {i : Nat} {target : String} (h : GroupLink size (numbered "Item" i) target) :
    target = numbered "Node" i := by
  rcases h.cases_word (by decide) with ⟨hword, -⟩ | ⟨-, htarget⟩ | hword
  · exact absurd hword (by decide)
  · exact htarget
  · exact absurd hword (by decide)

theorem reaches_of_node {i : Nat} {name : String} (h : ReflTransGen (GroupLink size) (numbered "Node" i) name) :
    ∃ j, name = numbered "Node" j := by
  induction h with
  | refl => exact ⟨i, rfl⟩
  | tail _ hlink ih =>
    obtain ⟨j, rfl⟩ := ih
    exact ⟨_, hlink.of_node⟩

theorem reaches_of_item {i : Nat} {name : String} (h : ReflTransGen (GroupLink size) (numbered "Item" i) name) :
    name = numbered "Item" i ∨ ∃ j, name = numbered "Node" j := by
  rcases h.cases_head with rfl | ⟨mid, hlink, hrest⟩
  · exact Or.inl rfl
  · rw [hlink.of_item] at hrest
    exact Or.inr (reaches_of_node hrest)

theorem not_node_to_item (i j : Nat) : ¬ ReflTransGen (GroupLink size) (numbered "Node" i) (numbered "Item" j) := by
  intro h
  obtain ⟨k, hk⟩ := reaches_of_node h
  exact numbered_apart (by decide) (by decide) (by decide) _ _ hk

theorem not_item_to_result (i j : Nat) : ¬ ReflTransGen (GroupLink size) (numbered "Item" i) (numbered "Result" j) := by
  intro h
  rcases reaches_of_item h with hk | ⟨k, hk⟩
  · exact numbered_apart (by decide) (by decide) (by decide) _ _ hk
  · exact numbered_apart (by decide) (by decide) (by decide) _ _ hk

theorem nodes_plain (table : ScalarTable) (style : EnumStyle) (i : Nat) (target : String) :
    Graph.Call.supertype (numbered "Node" i) target ∉ (Outline.ofList (groupsDeclarations table style size)).calls := by
  have hapart : ∀ k, ∀ d ∈ groupDeclarations table style k (following size k), d.identity = numbered "Node" i →
      target ∉ d.supertypes := by
    intro k
    simp only [groupDeclarations, List.forall_mem_cons]
    refine ⟨fun _ => Declaration.supertypes_ofInterface _ _ _, fun hname => ?_, fun _ => List.not_mem_nil,
      fun _ => List.not_mem_nil, fun hname => ?_, List.forall_mem_nil _⟩
    · rw [Declaration.identity_ofObject] at hname
      exact absurd hname (numbered_apart (by decide) (by decide) (by decide) k i)
    · rw [Declaration.identity_ofUnion] at hname
      exact absurd hname (numbered_apart (by decide) (by decide) (by decide) k i)
  intro hcall
  obtain ⟨d, hd, hidentity, -, hsuper⟩ := Outline.mem_calls_supertype.mp hcall
  obtain ⟨k, -, hd⟩ := List.mem_flatMap.mp (Outline.mem_of_mem_ordered ((Outline.ordered_perm _).mem_iff.mpr hd))
  exact hapart k d hd hidentity hsuper

theorem nodes_sublist (numbers : List Nat) :
    (numbers.map (numbered "Node")).Sublist (numbers.flatMap fun i => groupWords.map (numbered · i)) := by
  induction numbers with
  | nil => exact .slnil
  | cons i numbers ih =>
    rw [List.map_cons, List.flatMap_cons, groupWords, List.map_cons, List.cons_append]
    exact (ih.trans (List.sublist_append_right _ _)).cons_cons _

section Order

variable (h : GroupTable table size)
include h

theorem linked_groups {source target : String} :
    Graph.Linked (Outline.ofList (groupsDeclarations table style size)).calls source target ↔
      GroupLink size source target :=
  (Outline.linked_calls (groups_closed h).nodup).trans (references_groups h)

theorem exists_nodes : ∃ before after, (Outline.ofList (groupsDeclarations table style size)).graph.order =
    before ++ (List.range size).map (numbered "Node") ++ after := by
  refine (Outline.ofList (groupsDeclarations table style size)).represents.exists_ring (numbered "Node")
    (fun i hi target => ?_) (fun i _ => nodes_plain table style i) ?_
  · rw [linked_groups h]
    refine ⟨GroupLink.of_node, ?_⟩
    rintro rfl
    exact .parent hi
  · rw [(groups_closed h).names_graph, identities_groups]
    exact nodes_sublist _

/-- What is referred to without a way back comes first. -/
theorem target_first_groups {source target : String} (hlink : GroupLink size source target)
    (hback : ¬ ReflTransGen (GroupLink size) target source) :
    [target, source].Sublist (Outline.ofList (groupsDeclarations table style size)).graph.order := by
  refine (Outline.represents _).target_first ((linked_groups h).mpr hlink) fun hsame => hback ?_
  exact ReflTransGen.mono (fun _ _ => (linked_groups h).mp) _ _ hsame.2

theorem order_groups_perm : (Outline.ofList (groupsDeclarations table style size)).graph.order.Perm (groupNames size) := by
  have hperm := (Outline.ofList (groupsDeclarations table style size)).represents.order_perm
  rwa [(groups_closed h).names_graph, identities_groups] at hperm

end Order

/-! ## The modules -/

variable {settings : Settings}

theorem ring_table (h : ∀ i < size, settings.Leaves (numbered "Ring" i)) :
    ∀ i < size, ((ringDocument size).scalarTable settings).Free (numbered "Ring" i) := by
  intro i hi
  refine ScalarTable.free_numbered ?_ (h i hi)
  simp [Document.scalarNames, ringDocument]

theorem groups_table (hnodes : ∀ i < size, settings.Leaves (numbered "Node" i))
    (hitems : ∀ i < size, settings.Leaves (numbered "Item" i)) :
    GroupTable ((groupsDocument size).scalarTable settings) size := by
  have hscalars : ∀ name ∈ (groupsDocument size).scalarNames, hasDigit name = false := by
    have hgroups : (groupsDocument size).scalarNames = ["DateTime", "JSON"] := by
      simp [Document.scalarNames, groupsDocument, groupDefinitions, List.filterMap_flatMap]
    rw [hgroups]
    decide
  refine ⟨?_, fun i hi => ScalarTable.free_numbered hscalars (hnodes i hi),
    fun i hi => ScalarTable.free_numbered hscalars (hitems i hi)⟩
  have hbuiltin : ScalarTable.builtin.get? "ID" = some (.named "str") := by decide
  rw [Document.scalarTable, ScalarTable.get?_ofDocument, hbuiltin]
  cases settings.scalars.get? "ID" with
  | none => exact ⟨_, rfl⟩
  | some target => exact ⟨target, rfl⟩

theorem generate_ring (h : ∀ i < size, settings.Leaves (numbered "Ring" i)) :
    generate settings (ring size) = .ok ((ringDocument size).header settings ++ Outline.separator ++
      Outline.separator.intercalate ((List.range size).map fun i => ringClass i (following size i)) ++ "\n") := by
  have hmerge : (ringDocument size).merge = ringDocument size :=
    Document.merge_of_plain (by simp [Document.hasExtensions, ringDocument, Definition.isExtension])
  have htexts : (ringDeclarations ((ringDocument size).scalarTable settings) size).map Declaration.text =
      (List.range size).map fun i => ringClass i (following size i) := by
    rw [ringDeclarations, List.map_map]
    exact List.map_congr_left fun i hi => text_ring i (ring_table h _ (following_lt (List.mem_range.mp hi)))
  rw [Document.generate_eq (parse_ring size), hmerge, outline_ring, Outline.moduleText, Outline.body,
    ordered_ring (ring_table h), htexts]

theorem names_groups (size : Nat) :
    (groupsDocument size).definitions.map Definition.name? = ("DateTime" :: "JSON" :: groupNames size).map some := by
  rw [groupsDocument, List.map_cons, List.map_cons, List.map_cons, List.map_cons, List.map_flatMap, groupNames,
    List.map_flatMap]
  rfl

theorem nodup_names_groups (size : Nat) : ("DateTime" :: "JSON" :: groupNames size).Nodup := by
  have hplain : ∀ plain, hasDigit plain = false → plain ∉ groupNames size := by
    intro plain hdigit hmem
    obtain ⟨i, -, hname⟩ := List.mem_flatMap.mp hmem
    obtain ⟨word, -, hname⟩ := List.mem_map.mp hname
    exact numbered_ne i hdigit hname
  refine List.nodup_cons.mpr ⟨fun hmem => ?_, List.nodup_cons.mpr ⟨hplain _ (by decide), nodup_groupNames size⟩⟩
  rcases List.mem_cons.mp hmem with he | hmem
  · exact absurd he (by decide)
  · exact hplain _ (by decide) hmem

/-- For every size and all settings that are not about their interfaces and items: the ring is accepted as its
interfaces and becomes their classes, each once and in order around the ring; the groups are accepted as their
definitions, which bear different names, and become their declarations, each once, with the interfaces in a row
and in order, every object class behind its interface and every union behind its members. -/
theorem modules_of_every_size (size : Nat) (settings : Settings)
    (hfree : ∀ word ∈ ["Ring", "Node", "Item"], ∀ i < size, settings.Leaves (numbered word i)) :
    (Document.parse (ring size) = .ok (ringDocument size) ∧ (ringDocument size).definitions.length = size ∧
      (∀ d ∈ (ringDocument size).definitions, ∃ type, d = .interface type) ∧
      generate settings (ring size) = .ok ((ringDocument size).header settings ++ Outline.separator ++
        Outline.separator.intercalate ((List.range size).map fun i => ringClass i (following size i)) ++ "\n")) ∧
    Document.parse (groups size) = .ok (groupsDocument size) ∧
      (groupsDocument size).definitions.length = 2 + 5 * size ∧
      (∃ names : List String, (groupsDocument size).definitions.map Definition.name? = names.map some ∧ names.Nodup) ∧
      ∃ names texts : List String, generate settings (groups size) = .ok ((groupsDocument size).header settings ++
          Outline.separator ++ Outline.separator.intercalate texts ++ "\n") ∧
        names.map ((groupsDocument size).rendering? settings) = texts.map some ∧
        names.Nodup ∧ names.Perm ((List.range size).flatMap fun i => groupWords.map (numbered · i)) ∧
        (∃ before after, names = before ++ (List.range size).map (numbered "Node") ++ after) ∧
        ∀ i < size, [numbered "Node" i, numbered "Item" i].Sublist names ∧
          [numbered "Item" i, numbered "Result" i].Sublist names ∧
          [numbered "Item" (following size i), numbered "Result" i].Sublist names := by
  have htable : GroupTable ((groupsDocument size).scalarTable settings) size :=
    groups_table (hfree "Node" (by decide)) (hfree "Item" (by decide))
  have hmerge : (groupsDocument size).merge = groupsDocument size := by
    refine Document.merge_of_plain ?_
    simpa [Document.hasExtensions] using groupsDocument_plain size
  have hclosed : Outline.Closed (groupsDeclarations ((groupsDocument size).scalarTable settings) settings.enumStyle size) :=
    groups_closed htable
  refine ⟨⟨parse_ring size, by simp [ringDocument], ?_, generate_ring (hfree "Ring" (by decide))⟩,
    parse_groups size, ?_, ⟨_, names_groups size, nodup_names_groups size⟩, ?_⟩
  · exact List.forall_mem_map.mpr fun i _ => ⟨_, rfl⟩
  · have hlength := congrArg List.length (names_groups size)
    simp [groupNames, groupWords] at hlength
    omega
  · refine ⟨(Outline.ofList (groupsDeclarations ((groupsDocument size).scalarTable settings) settings.enumStyle
      size)).graph.order, ((groupsDocument size).outline settings).ordered.map Declaration.text, ?_, ?_, ?_,
      order_groups_perm htable, exists_nodes htable, fun i hi => ⟨?_, ?_, ?_⟩⟩
    · rw [Document.generate_eq (parse_groups size), hmerge]
      rfl
    · rw [← hclosed.map_identity_ordered, ← outline_groups, List.map_map, List.map_map]
      exact List.map_congr_left fun d hd => Document.rendering?_of_mem hd
    · exact (order_groups_perm htable).nodup_iff.mpr (nodup_groupNames size)
    · exact target_first_groups htable (.base hi) (not_node_to_item i i)
    · exact target_first_groups htable (.first hi) (not_item_to_result i i)
    · exact target_first_groups htable (.second hi) (not_item_to_result _ i)

/-- Two of each, which are each other's next, and a scalar with a target. -/
theorem modules_of_every_size_two :
    let settings := Settings.setScalar {} "DateTime" (.named "datetime")
    (∀ word ∈ ["Ring", "Node", "Item"], ∀ i < 2, settings.Leaves (numbered word i)) ∧
      generate settings (ring 2) = .ok ("from typing import Optional\nfrom pydantic import BaseModel\n\n\n" ++
        "class Ring0(BaseModel):\n    next: 'Ring1'\n\n\nclass Ring1(BaseModel):\n    next: 'Ring0'\n") ∧
      ∃ names before after : List String, names.Perm ["Node0", "Item0", "ItemFilter0", "Status0", "Result0", "Node1",
          "Item1", "ItemFilter1", "Status1", "Result1"] ∧ names = before ++ ["Node0", "Node1"] ++ after ∧
        ["Item0", "Result1"].Sublist names := by
  intro settings
  have hfree : ∀ word ∈ ["Ring", "Node", "Item"], ∀ i < 2, settings.Leaves (numbered word i) := by decide
  obtain ⟨⟨-, -, -, hring⟩, -, -, -, names, -, -, -, -, hperm, ⟨before, after, hnodes⟩, hfirst⟩ :=
    modules_of_every_size 2 settings hfree
  refine ⟨hfree, hring.trans ?_, names, before, after, hperm, hnodes, (hfirst 1 (by decide)).2.2⟩
  decide +kernel

end Samples

end SchemaModels
