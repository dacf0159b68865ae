import SchemaModels.Proofs.Header
import SchemaModels.Proofs.Shapes

/-! What type hints say. Where no mark that excludes null stands on another, the layer that a mark takes off
is always the one just put on, so the text of a hint follows the type layer by layer: a type that admits
null is written as optional, and `Any` stands by itself. Where targets of scalars have no brackets, these
layers can be read back from the text. -/

namespace SchemaModels
set_option autoImplicit false

/-! ## Types layer by layer -/

namespace TypeExpr

def isMarked : TypeExpr → Bool
  | named _ => false
  | list _ => false
  | nonNull _ => true

/-- Whether no mark that excludes null stands on another. -/
def marksApart : TypeExpr → Bool
  | named _ => true
  | list item => item.marksApart
  | nonNull inner => !inner.isMarked && inner.marksApart

theorem marksApart_nonNull {inner : TypeExpr} (h : (nonNull inner).marksApart) :
    inner.isMarked = false ∧ inner.marksApart := by
  simpa [marksApart] using h

theorem WellFormed.marksApart {room : Nat} {type : TypeExpr} (h : type.WellFormed room) : type.marksApart := by
  induction h with
  | named _ => rfl
  | list _ ih => exact ih
  | @nonNull room inner _ hplain ih =>
    cases inner with
    | nonNull type => exact absurd rfl (hplain type)
    | _ => exact ih

end TypeExpr

/-- The type that a name stands for in a module. -/
def ScalarTable.meaning (table : ScalarTable) (name : String) : String :=
  match table.get? name with
  | some target => target.identity
  | none => name

/-- How that type is written: what the module declares in quotes, targets of scalars as they are. -/
def ScalarTable.reference (table : ScalarTable) (name : String) : String :=
  match table.get? name with
  | some target => target.identity
  | none => "'" ++ name ++ "'"

def TypeHint.optionalIf (optional : Bool) (text : String) : String :=
  if optional then "Optional[" ++ text ++ "]" else text

namespace TypeExpr

/-- Whether a type is written as optional: it admits null and is not `Any`, which says so already. -/
def isOptional (table : ScalarTable) : TypeExpr → Bool
  | named name => table.get? name ≠ some .any
  | list _ => true
  | nonNull _ => false

/-- The text of a type apart from null. -/
def core (table : ScalarTable) : TypeExpr → String
  | named name => table.reference name
  | list item => "List[" ++ TypeHint.optionalIf (item.isOptional table) (item.core table) ++ "]"
  | nonNull inner => inner.core table

def rendering (table : ScalarTable) (type : TypeExpr) : String :=
  TypeHint.optionalIf (type.isOptional table) (type.core table)

end TypeExpr

namespace TypeHint

variable {table : ScalarTable}

theorem identity_ofType (table : ScalarTable) (type : TypeExpr) :
    (ofType table type).identity = table.meaning type.baseName := by
  induction type with
  | named name =>
    show (named table name).identity = table.meaning name
    unfold named ScalarTable.meaning
    split <;> simp_all [ScalarTarget.identity]
  | list item ih => exact ih
  | nonNull inner ih => exact ih

theorem text_named (table : ScalarTable) (name : String) :
    (named table name).text = (TypeExpr.named name).rendering table := by
  cases h : table.get? name with
  | none => simp [text_named_of_none h, TypeExpr.rendering, TypeExpr.isOptional, TypeExpr.core,
      ScalarTable.reference, optionalIf, h]
  | some target =>
    cases target <;> simp [named, TypeExpr.rendering, TypeExpr.isOptional, TypeExpr.core,
      ScalarTable.reference, ScalarTarget.identity, optionalIf, h]

theorem stripOptional_rendering {type : TypeExpr} (h : type.isMarked = false) :
    stripOptional (type.rendering table) = type.core table := by
  unfold TypeExpr.rendering optionalIf
  split
  · exact stripOptional_wrapped _
  · next hany =>
    -- null has put on no layer, and `Any` does not look like one
    cases type with
    | named name =>
      have hget : table.get? name = some .any := by simpa [TypeExpr.isOptional] using hany
      have hcore : (TypeExpr.named name).core table = "Any" := by
        simp [TypeExpr.core, ScalarTable.reference, hget, ScalarTarget.identity]
      rw [hcore]
      exact stripOptional_of_not_mem (by decide)
    | list item => exact absurd rfl hany
    | nonNull inner => cases h

theorem text_ofType {type : TypeExpr} (h : type.marksApart) : (ofType table type).text = type.rendering table := by
  induction type with
  | named name => exact text_named table name
  | list item ih =>
    show (ofType table item).list.text = _
    rw [text_list, ih h]
    rfl
  | nonNull inner ih =>
    obtain ⟨hplain, hinner⟩ := TypeExpr.marksApart_nonNull h
    show stripOptional (ofType table inner).text = inner.core table
    rw [ih hinner, stripOptional_rendering hplain]

end TypeHint

theorem Definition.WellFormed.attributes {room : Nat} {definition : Definition} (hwell : definition.WellFormed room) :
    ∀ field ∈ definition.attributes, field.2.WellFormed room := by
  cases definition with
  | object o => exact List.forall_mem_map.mpr fun f hf => (hwell.fields f hf).type
  | interface o => exact List.forall_mem_map.mpr fun f hf => (hwell.fields f hf).type
  | input o => exact List.forall_mem_map.mpr fun f hf => (hwell.fields f hf).type
  | _ => exact List.forall_mem_nil _

theorem Document.marksApart_of_parse {text : String} {doc : Document} (hparse : Document.parse text = .ok doc) :
    ∀ field ∈ doc.merge.attributes, field.2.marksApart := by
  intro field hfield
  obtain ⟨definition, hmem, hfield⟩ := List.mem_flatMap.mp hfield
  have hwell := merge_wellFormed (wellFormed_of_parse hparse) definition hmem
  exact (hwell.attributes field hfield).marksApart

namespace TypeHint

/-- Where marks are apart, the hint of a type points at what the base name means and is written as the type
reads layer by layer. All types that are read from a text are of this kind. -/
theorem ofType_rendering (table : ScalarTable) :
    (∀ type : TypeExpr, type.marksApart →
      (ofType table type).identity = table.meaning type.baseName ∧ (ofType table type).text = type.rendering table) ∧
    ∀ (text : String) (doc : Document), Document.parse text = .ok doc →
      ∀ field ∈ doc.merge.attributes, field.2.marksApart :=
  ⟨fun type h => ⟨identity_ofType table type, text_ofType h⟩, fun _ _ => Document.marksApart_of_parse⟩

/-- A target that looks like a layer itself, and `Any` with and without a mark. -/
theorem ofType_rendering_layered_target :
    let table : ScalarTable := .ofList [("Maybe", .named "Optional[x]"), ("Json", .any)]
    let type : TypeExpr := .nonNull (.list (.nonNull (.named "Maybe")))
    type.marksApart ∧ (ofType table type).identity = "Optional[x]" ∧ (ofType table type).text = "List[Optional[x]]" ∧
      (ofType table (.list (.named "Json"))).text = "Optional[List[Any]]" ∧
      (ofType table (.list (.nonNull (.named "Json")))).text = "Optional[List[Any]]" := by
  intro table type
  have hmeaning := (ofType_rendering table).1
  obtain ⟨hidentity, htext⟩ := hmeaning type rfl
  exact ⟨rfl, hidentity, htext, (hmeaning _ rfl).2, (hmeaning _ rfl).2⟩

end TypeHint

/-! ## Layers read back -/

inductive Layer where
  | list
  | nonNull
deriving DecidableEq, Repr

namespace TypeExpr

/-- The layers of a type from the outside in. -/
def layers : TypeExpr → List Layer
  | named _ => []
  | list item => .list :: item.layers
  | nonNull inner => .nonNull :: inner.layers

theorem eq_of_layers {a b : TypeExpr} (hlayers : a.layers = b.layers) (hbase : a.baseName = b.baseName) : a = b := by
  induction a generalizing b with
  | named name =>
    cases b with
    | named other => exact congrArg named hbase
    | _ => cases hlayers
  | list item ih =>
    cases b with
    | list other => exact congrArg list (ih (List.cons.inj hlayers).2 hbase)
    | _ => cases hlayers
  | nonNull inner ih =>
    cases b with
    | nonNull other => exact congrArg nonNull (ih (List.cons.inj hlayers).2 hbase)
    | _ => cases hlayers

end TypeExpr

/-- The targets of a table are written without brackets, as names are. -/
def ScalarTable.BracketFree (table : ScalarTable) : Prop :=
  ∀ name text, table.get? name = some (.named text) → '[' ∉ text.toList

/-- A reference is not the beginning of a layer: it has no bracket, or it begins with a quote. -/
theorem ScalarTable.BracketFree.reference_ne {table : ScalarTable} (ht : table.BracketFree) {opening : String}
    (hbracket : '[' ∈ opening.toList) (hquote : opening.toList.head? ≠ some '\x27') (name rest : String) :
    table.reference name ≠ opening ++ rest := by
  intro heq
  have hmem : '[' ∈ (table.reference name).toList := by
    rw [heq, String.toList_append]
    exact List.mem_append_left _ hbracket
  cases hget : table.get? name with
  | some target =>
    rw [reference, hget] at hmem
    cases target with
    | named text => exact ht name text hget hmem
    | any =>
      have hany : '[' ∉ ScalarTarget.any.identity.toList := by decide
      exact hany hmem
  | none =>
    have hhead : (table.reference name).toList.head? = some '\x27' := by
      simp [reference, hget]
    rw [heq, String.toList_append, List.head?_append_of_ne_nil _ (List.ne_nil_of_mem hbracket)] at hhead
    exact hquote hhead

theorem between_inj {opening closing x y : String} (h : opening ++ x ++ closing = opening ++ y ++ closing) : x = y :=
  (String.append_right_inj _).mp ((String.append_left_inj _).mp h)

namespace TypeExpr

variable {table : ScalarTable} (ht : table.BracketFree)
include ht

theorem core_ne_optional (type : TypeExpr) (inner : String) : type.core table ≠ "Optional[" ++ inner ++ "]" := by
  induction type with
  | named name =>
    rw [String.append_assoc]
    exact ht.reference_ne (by decide) (by decide) name _
  | list item =>
    intro heq
    have hhead := congrArg (·.toList.head?) heq
    simp [core] at hhead
  | nonNull inner ih => exact ih

theorem core_named_ne_list (name : String) (item : TypeExpr) :
    (named name).core table ≠ (list item).core table := by
  rw [core, core, String.append_assoc]
  exact ht.reference_ne (by decide) (by decide) name _

theorem rendering_inj {a b : TypeExpr} (h : a.rendering table = b.rendering table) :
    a.isOptional table = b.isOptional table ∧ a.core table = b.core table := by
  unfold rendering TypeHint.optionalIf at h
  cases ha : a.isOptional table <;> cases hb : b.isOptional table <;> rw [ha, hb] at h
  · exact ⟨rfl, h⟩
  · exact absurd h (a.core_ne_optional ht _)
  · exact absurd h.symm (b.core_ne_optional ht _)
  · exact ⟨rfl, between_inj h⟩

omit ht in
theorem isOptional_of_unmarked {type : TypeExpr} (hplain : type.isMarked = false)
    (hbase : table.get? type.baseName ≠ some .any) : type.isOptional table = true := by
  cases type with
  | named name => exact decide_eq_true hbase
  | list item => rfl
  | nonNull inner => cases hplain

/-- Types with the same text, optional both or neither, have the same layers around references that are
written alike. -/
theorem layers_of_core {a b : TypeExpr} (ha : a.marksApart) (hb : b.marksApart)
    (hbaseA : table.get? a.baseName ≠ some .any) (hbaseB : table.get? b.baseName ≠ some .any)
    (hoptional : a.isOptional table = b.isOptional table) (hcore : a.core table = b.core table) :
    a.layers = b.layers ∧ table.reference a.baseName = table.reference b.baseName := by
  induction a generalizing b with
  | named name =>
    cases b with
    | named other => exact ⟨rfl, hcore⟩
    | list item => exact absurd hcore (core_named_ne_list ht name item)
    | nonNull inner =>
      rw [isOptional_of_unmarked rfl hbaseA] at hoptional
      cases hoptional
  | list item ih =>
    cases b with
    | named name => exact absurd hcore.symm (core_named_ne_list ht name item)
    | list other =>
      -- the texts between the brackets are the renderings of the items
      obtain ⟨hitems, hcores⟩ := rendering_inj ht (between_inj hcore)
      obtain ⟨hlayers, hreference⟩ := ih (b := other) ha hb hbaseA hbaseB hitems hcores
      exact ⟨congrArg (List.cons Layer.list) hlayers, hreference⟩
    | nonNull inner => cases hoptional
  | nonNull inner ih =>
    obtain ⟨hplain, hinner⟩ := marksApart_nonNull ha
    cases b with
    | named name =>
      rw [isOptional_of_unmarked rfl hbaseB] at hoptional
      cases hoptional
    | list item => cases hoptional
    | nonNull other =>
      -- under a mark both types admit null
      obtain ⟨hplainOther, hother⟩ := marksApart_nonNull hb
      have hboth := (isOptional_of_unmarked hplain hbaseA).trans (isOptional_of_unmarked hplainOther hbaseB).symm
      obtain ⟨hlayers, hreference⟩ := ih hinner hother hbaseA hbaseB hboth hcore
      exact ⟨congrArg (List.cons Layer.nonNull) hlayers, hreference⟩

end TypeExpr

theorem ScalarTable.NamedTargets.bracketFree {table : ScalarTable} (ht : table.NamedTargets) : table.BracketFree :=
  fun name _ hget => (ht name _ hget).not_mem (by decide)

/-- Where no target has brackets and no base is `Any`, types with the same hint have the same layers, and are the
same if the module declares their bases. -/
theorem TypeHint.layers_of_text {table : ScalarTable} (ht : table.BracketFree) {a b : TypeExpr}
    (ha : a.marksApart) (hb : b.marksApart) (hbaseA : table.get? a.baseName ≠ some .any)
    (hbaseB : table.get? b.baseName ≠ some .any) (htext : (ofType table a).text = (ofType table b).text) :
    a.layers = b.layers ∧ (table.get? a.baseName = none → table.get? b.baseName = none → a = b) := by
  rw [text_ofType ha, text_ofType hb] at htext
  obtain ⟨hoptional, hcore⟩ := TypeExpr.rendering_inj ht htext
  obtain ⟨hlayers, hreference⟩ := TypeExpr.layers_of_core ht ha hb hbaseA hbaseB hoptional hcore
  refine ⟨hlayers, fun hnoneA hnoneB => TypeExpr.eq_of_layers hlayers ?_⟩
  rw [ScalarTable.reference, ScalarTable.reference, hnoneA, hnoneB] at hreference
  exact between_inj hreference

/-- Two scalars with the same target in the same layers. -/
theorem TypeHint.layers_of_text_scalars :
    let table : ScalarTable := .ofDocument ⟨[]⟩ .empty
    let a : TypeExpr := .list (.nonNull (.named "ID"))
    let b : TypeExpr := .list (.nonNull (.named "String"))
    table.BracketFree ∧ (ofType table a).text = "Optional[List[str]]" ∧
      (ofType table b).text = "Optional[List[str]]" ∧ a.layers = b.layers ∧ a ≠ b := by
  intro table a b
  have ht : table.BracketFree := (ScalarTable.namedTargets_default ⟨[]⟩).bracketFree
  have hbase : table.get? "ID" ≠ some .any ∧ table.get? "String" ≠ some .any := by decide
  have htextA : (ofType table a).text = "Optional[List[str]]" := by decide
  have htextB : (ofType table b).text = "Optional[List[str]]" := by decide
  have hlayers := layers_of_text ht (a := a) (b := b) rfl rfl hbase.1 hbase.2 (htextA.trans htextB.symm)
  exact ⟨ht, htextA, htextB, hlayers.1, by decide⟩

end SchemaModels
